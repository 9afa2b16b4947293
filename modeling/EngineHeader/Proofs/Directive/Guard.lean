import EngineHeader.Proofs.Directive.Joined

/-!
# Include guards

A header guards itself if all of it is one block that is taken where a name is not defined, and the
block defines that name.  However often such a header stands behind itself, only the first one that
is reached leaves anything: the others leave a line feed each (`flatten_copies`).

Names that are defined stay defined.  A definition directly in a block is reached whenever the block
is taken (`mem_reached`), so behind the block the name is defined in any case
(`mem_meaningOf_guard`).  From there on the block is not taken (`meaning_guards`).

The source texts that are left are also told apart from the line feeds between them (`kept`).
-/

namespace EngineHeader.Directive

/-! ## Source texts that are left -/

mutual

/-- The source texts that are left of a directive, where some names are defined. -/
def keptOf : Directive → Names → List String
  | .source text, _ => [text]
  | .define _, _ => []
  | .includeFile _ _, _ => []
  | .block condition name body, names =>
    if condition.holds name names then kept body names else []

/-- The source texts that are left of directives, in order. -/
def kept : List Directive → Names → List String
  | [], _ => []
  | d :: ds, names => keptOf d names ++ kept ds (meaningOf d names).2

end

/-- The characters of a text, its line feeds aside. -/
def withoutFeeds (text : String) : List Char := text.toList.filter (· != '\n')

theorem withoutFeeds_append (a b : String) :
    withoutFeeds (a ++ b) = withoutFeeds a ++ withoutFeeds b := by
  simp [withoutFeeds]

mutual

/-- Line feeds aside, a directive leaves the source texts that are kept. -/
theorem withoutFeeds_meaningOf : ∀ (d : Directive) (names : Names),
    withoutFeeds (meaningOf d names).1 = (keptOf d names).flatMap withoutFeeds
  | .source text, names => by simp [meaningOf, keptOf]
  | .define name, names => by simp [meaningOf, keptOf, withoutFeeds]
  | .includeFile name angled, names => by simp [meaningOf, keptOf, withoutFeeds]
  | .block condition name body, names => by
      rw [meaningOf_block, keptOf]
      split
      · exact withoutFeeds_meaning body names
      · simp [withoutFeeds]

/-- Line feeds aside, directives leave the source texts that are kept. -/
theorem withoutFeeds_meaning : ∀ (ds : List Directive) (names : Names),
    withoutFeeds (meaning ds names).1 = (kept ds names).flatMap withoutFeeds
  | [], names => by simp [meaning, kept, withoutFeeds]
  | d :: ds, names => by
      have hfeed : withoutFeeds "\n" = [] := by decide
      rw [meaning, kept, List.flatMap_append, ← withoutFeeds_meaningOf, ← withoutFeeds_meaning]
      simp [withoutFeeds_append, hfeed]

end

/-! ## Guards -/

variable {guard : String} {body : List Directive} {names : Names}

/-- A definition that is in no other block is reached. -/
theorem mem_reached (h : .define guard ∈ body) (names : Names) : guard ∈ reached body names := by
  induction body generalizing names with
  | nil => cases h
  | cons d ds ih =>
    rw [reached, List.mem_append]
    rcases List.mem_cons.mp h with rfl | h
    · left
      rw [reachedOf]
      exact List.mem_singleton_self guard
    · right
      exact ih h _

/-- Behind the block the name is defined, whether the block was taken or not. -/
theorem mem_meaningOf_guard (h : .define guard ∈ body) (names : Names) :
    guard ∈ (meaningOf (.block .undefined guard body) names).2 := by
  rw [meaningOf]
  split
  next hdefined => exact hdefined
  next =>
    rw [names_meaning, Names.mem_insertAll]
    exact .inr (mem_reached h names)

/-- So many line feeds. -/
def feeds (n : Nat) : String := String.ofList (List.replicate n '\n')

theorem feeds_succ (n : Nat) : feeds (n + 1) = "\n" ++ feeds n := by
  rw [feeds, List.replicate_succ, String.ofList_cons]
  rfl

/-- Where the name is defined, blocks that need it not to be leave a line feed each. -/
theorem meaning_guards (h : guard ∈ names) (body : List Directive) (n : Nat) :
    meaning (List.replicate n (.block .undefined guard body)) names = (feeds n, names) := by
  induction n with
  | zero => rfl
  | succ n ih =>
    have hblock : meaningOf (.block .undefined guard body) names = ("", names) := by
      rw [meaningOf, if_pos h]
    rw [List.replicate_succ, meaning, hblock, feeds_succ]
    simp only [ih, String.empty_append]

/-- Where the name is defined, blocks that need it not to be keep no source text. -/
theorem kept_guards (h : guard ∈ names) (body : List Directive) (n : Nat) :
    kept (List.replicate n (.block .undefined guard body)) names = [] := by
  induction n with
  | zero => rfl
  | succ n ih =>
    have hblock : meaningOf (.block .undefined guard body) names = ("", names) := by
      rw [meaningOf, if_pos h]
    have hkept : keptOf (.block .undefined guard body) names = [] := by
      simp [keptOf, Condition.holds, h]
    rw [List.replicate_succ, kept, hblock, hkept, ih, List.nil_append]

/-! ## Copies -/

/-- A text so many times. -/
def copies (n : Nat) (a : String) : String := String.join (List.replicate n a)

@[simp] theorem copies_zero (a : String) : copies 0 a = "" := rfl

theorem copies_succ (n : Nat) (a : String) : copies (n + 1) a = a ++ copies n a := by
  rw [copies, List.replicate_succ, String.join_cons, copies]

/-- Copies of a header that ends in a directive line have its tree as often. -/
theorem ofText_copies {a : String} {d : Directive} (ha : EndsInLine a) (h : ofText a = .ok [d])
    (n : Nat) : ofText (copies n a) = .ok (List.replicate n d) := by
  induction n with
  | zero => cbv
  | succ n ih =>
    rw [copies_succ, ofText_behind (.inr ha) h, ih]
    rfl

end EngineHeader.Directive

namespace EngineHeader

open Directive

/-- A header ends in a directive line, and all of it is a block that is taken where a name is not
defined and that has the definition of this name among its directives.  Then copies of the header
have this block as often, and they leave what one leaves and a line feed for each further copy.
Every source text of the block is kept as often as in one copy. -/
theorem flatten_copies {a guard : String} {body : List Directive} (ha : EndsInLine a)
    (htree : Directive.ofText a = .ok [.block .undefined guard body])
    (hguard : .define guard ∈ body) (names : Names) (n : Nat) :
    Directive.ofText (copies (n + 1) a) =
        .ok (List.replicate (n + 1) (.block .undefined guard body)) ∧
      (∃ t, flatten a names = .ok t ∧ flatten (copies (n + 1) a) names = .ok (t ++ feeds n)) ∧
      kept (List.replicate (n + 1) (.block .undefined guard body)) names =
        kept [.block .undefined guard body] names := by
  have hall := ofText_copies ha htree (n + 1)
  have hdefined := mem_meaningOf_guard hguard names
  have htext : (meaning (List.replicate (n + 1) (.block .undefined guard body)) names).1 =
      (meaning [.block .undefined guard body] names).1 ++ feeds n := by
    simp only [List.replicate_succ, meaning, meaning_guards hdefined, String.append_empty]
  have hkept : kept (List.replicate (n + 1) (.block .undefined guard body)) names =
      kept [.block .undefined guard body] names := by
    simp only [List.replicate_succ, kept, kept_guards hdefined]
  exact ⟨hall, ⟨_, flatten_eq_ok_iff.mpr ⟨_, htree, rfl⟩,
    flatten_eq_ok_iff.mpr ⟨_, hall, htext⟩⟩, hkept⟩

/-- The guard is defined behind a block inside of the block, and the comment stands outside. -/
theorem flatten_copies_comment :
    EndsInLine "/* é */\n#ifndef G\n#ifdef A\nint a;\n#endif\n#define G\nint g;\n#endif\n" ∧
      Directive.ofText
          "/* é */\n#ifndef G\n#ifdef A\nint a;\n#endif\n#define G\nint g;\n#endif\n" =
        .ok [.block .undefined "G"
          [.block .defined "A" [.source "int a;\n"], .define "G", .source "int g;\n"]] ∧
      flatten (copies 3
          "/* é */\n#ifndef G\n#ifdef A\nint a;\n#endif\n#define G\nint g;\n#endif\n") .empty =
        .ok ("\n\nint g;\n\n\n" ++ feeds 2) := by
  have hscan : Segment.scanText
      "/* é */\n#ifndef G\n#ifdef A\nint a;\n#endif\n#define G\nint g;\n#endif\n" =
      ⟨[⟨.line ⟨"ifndef", some (.word "G"), ""⟩, ⟨9, 2, 1⟩⟩,
        ⟨.line ⟨"ifdef", some (.word "A"), ""⟩, ⟨19, 3, 1⟩⟩, ⟨.source "int a;\n", ⟨28, 4, 1⟩⟩,
        ⟨.line ⟨"endif", none, ""⟩, ⟨35, 5, 1⟩⟩,
        ⟨.line ⟨"define", some (.word "G"), ""⟩, ⟨42, 6, 1⟩⟩,
        ⟨.source "int g;\n", ⟨52, 7, 1⟩⟩, ⟨.line ⟨"endif", none, ""⟩, ⟨59, 8, 1⟩⟩], none⟩ := by
    cbv
  have hline : EndsInLine
      "/* é */\n#ifndef G\n#ifdef A\nint a;\n#endif\n#define G\nint g;\n#endif\n" := by
    refine ⟨"/* é */\n#ifndef G\n#ifdef A\nint a;\n#endif\n#define G\nint g;\n".toList,
      "endif".toList, by decide, by cbv, ?_⟩
    rw [hscan]
    cbv
  have htree : Directive.ofText
      "/* é */\n#ifndef G\n#ifdef A\nint a;\n#endif\n#define G\nint g;\n#endif\n" =
      .ok [.block .undefined "G"
        [.block .defined "A" [.source "int a;\n"], .define "G", .source "int g;\n"]] := by
    rw [Directive.ofText, hscan]
    rfl
  have hguard : Directive.define "G" ∈
      [.block .defined "A" [.source "int a;\n"], .define "G", .source "int g;\n"] :=
    .tail _ (.head _)
  obtain ⟨_, ⟨t, hone, hall⟩, _⟩ := flatten_copies hline htree hguard .empty 2
  obtain rfl : "\n\nint g;\n\n\n" = t := by
    rw [flatten, htree] at hone
    exact Except.ok.inj (.trans (by cbv) hone)
  exact ⟨hline, htree, hall⟩

end EngineHeader
