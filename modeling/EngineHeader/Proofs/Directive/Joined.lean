import EngineHeader.Proofs.Directive.Appended
import EngineHeader.Proofs.Directive.Meaning
import EngineHeader.Proofs.Directive.Sources
import Mathlib

/-!
# Headers one behind the other

A header that ends in a directive line may be followed by any other (`flatten_append`).  The tree
of both is the one tree and then the other.  What is wrong with the second is wrong at a place that
has the bytes and the lines of the first more.  And both are flattened in turn, where the second
sees the names that the first has defined.

The segments of the second are cut as they are alone.  The builder comes to them with no block open,
and so what it does with them is what it does from the beginning (`Builder.foldlM_step_behind`).

Which names the first has defined depends on the names that it starts from.  They are those of the
definitions that are reached, as the blocks are decided one by one (`reached`).
-/

namespace EngineHeader.Directive

/-! ## Trees -/

variable {bytes lines : Nat} {front : List Directive}

/-- An open block behind so many more bytes and lines. -/
def OpenBlock.shift (b : OpenBlock) (bytes lines : Nat) : OpenBlock :=
  { b with position := b.position.shift bytes lines }

namespace Builder

/-- What a builder holds that comes to its segments behind a tree, so many bytes and lines further
down. -/
def behind (front : List Directive) (bytes lines : Nat) (b : Builder) : Builder where
  blocks := b.blocks.map (·.shift bytes lines)
  outside := b.outside ++ front.reverse

theorem add_behind (b : Builder) (d : Directive) :
    (b.behind front bytes lines).add d = (b.add d).behind front bytes lines := by
  obtain ⟨blocks, outside⟩ := b
  cases blocks with
  | nil => rfl
  | cons inner outer => rfl

theorem follow_behind (b : Builder) (p : Position) (i : Instruction) :
    (b.behind front bytes lines).follow (p.shift bytes lines) i =
      (b.follow p i).map (behind front bytes lines) := by
  cases i with
  | nothing => rfl
  | leaf d => exact congrArg Except.ok (b.add_behind d)
  | enter condition name => rfl
  | leave bare =>
    obtain ⟨blocks, outside⟩ := b
    cases blocks with
    | nil => rfl
    | cons inner outer =>
      cases bare with
      | true => exact congrArg Except.ok (add_behind ⟨outer, outside⟩ inner.close)
      | false => rfl

theorem step_behind (b : Builder) (s : Segment) :
    (b.behind front bytes lines).step (s.shift bytes lines) =
      ((b.step s).map (behind front bytes lines)).mapError (·.shift bytes lines) := by
  obtain ⟨content, p⟩ := s
  cases content with
  | source text => exact congrArg Except.ok (b.add_behind _)
  | line l =>
    rw [step, step]
    dsimp only [Segment.shift]
    cases l.instruction with
    | error fault => rfl
    | ok i =>
      rw [show (Except.ok i >>= (b.behind front bytes lines).follow (p.shift bytes lines)) = _ from
        b.follow_behind p i]
      rw [show (Except.ok i >>= b.follow p) = b.follow p i from rfl]
      cases b.follow p i with
      | error fault => rfl
      | ok b' => rfl

/-- Behind a tree the builder does with the segments what it does from the beginning. -/
theorem foldlM_step_behind (b : Builder) (ss : List Segment) :
    (ss.map (·.shift bytes lines)).foldlM step (b.behind front bytes lines) =
      ((ss.foldlM step b).map (behind front bytes lines)).mapError (·.shift bytes lines) := by
  induction ss generalizing b with
  | nil => rfl
  | cons s ss ih =>
    rw [List.map_cons, List.foldlM_cons, List.foldlM_cons, step_behind]
    cases b.step s with
    | error e => rfl
    | ok b' => exact ih b'

theorem finish_behind (b : Builder) :
    (b.behind front bytes lines).finish =
      (b.finish.map (front ++ ·)).mapError (·.shift bytes lines) := by
  obtain ⟨blocks, outside⟩ := b
  cases blocks with
  | nil => exact congrArg Except.ok (by simp [behind])
  | cons inner outer => rfl

end Builder

/-- A header behind a directive line has the tree that it has alone, behind the tree in front, or
the fault that it has alone, further down. -/
theorem ofText_behind {a : String} (ha : a = "" ∨ EndsInLine a) (h : ofText a = .ok front)
    (b : String) :
    ofText (a ++ b) =
      ((ofText b).map (front ++ ·)).mapError (·.shift a.utf8ByteSize (a.toList.count '\n')) := by
  obtain ⟨_, ⟨blocks, outside⟩, hrun, rfl, rfl⟩ := ofText_eq_ok_iff.mp h
  rw [ofText, ofScan, scanText_append ha, ofText, ofScan, shiftScan]
  dsimp only
  have hbehind : ((Segment.scanText a).items ++ (Segment.scanText b).items.map
        (·.shift a.utf8ByteSize (a.toList.count '\n'))).foldlM Builder.step .empty =
      ((Segment.scanText b).items.map
        (·.shift a.utf8ByteSize (a.toList.count '\n'))).foldlM Builder.step
        (Builder.behind outside.reverse a.utf8ByteSize (a.toList.count '\n') .empty) := by
    rw [List.foldlM_append, hrun]
    simp [Builder.behind, Builder.empty, bind, Except.bind]
  rw [hbehind, Builder.foldlM_step_behind]
  cases (Segment.scanText b).items.foldlM Builder.step .empty with
  | error e => rfl
  | ok builder =>
    cases (Segment.scanText b).error? with
    | some e => rfl
    | none => exact builder.finish_behind

/-! ## Names -/

mutual

/-- The names that a directive defines where some are defined already: those of the definitions in
blocks that are taken. -/
def reachedOf : Directive → Names → List String
  | .source _, _ => []
  | .define name, _ => [name]
  | .includeFile _ _, _ => []
  | .block condition name body, names =>
    if condition.holds name names then reached body names else []

/-- The names that directives define, in order. -/
def reached : List Directive → Names → List String
  | [], _ => []
  | d :: ds, names => reachedOf d names ++ reached ds (names.insertAll (reachedOf d names))

end

theorem insertAll_append (names : Names) (more others : List String) :
    names.insertAll (more ++ others) = (names.insertAll more).insertAll others :=
  List.foldl_append

mutual

/-- Behind a directive the names that it defines are defined. -/
theorem names_meaningOf : ∀ (d : Directive) (names : Names),
    (meaningOf d names).2 = names.insertAll (reachedOf d names)
  | .source text, names => by
      rw [meaningOf, reachedOf]
      rfl
  | .define name, names => by
      rw [meaningOf, reachedOf]
      rfl
  | .includeFile name angled, names => by
      rw [meaningOf, reachedOf]
      rfl
  | .block condition name body, names => by
      rw [meaningOf_block, reachedOf]
      split
      · exact names_meaning body names
      · rfl

/-- Behind directives the names that they define are defined. -/
theorem names_meaning : ∀ (ds : List Directive) (names : Names),
    (meaning ds names).2 = names.insertAll (reached ds names)
  | [], names => by
      rw [meaning, reached]
      rfl
  | d :: ds, names => by
      rw [meaning, reached, insertAll_append, ← names_meaningOf]
      exact names_meaning ds _

end

end EngineHeader.Directive

namespace EngineHeader

open Directive

/-- Headers are read one behind the other, if the first is empty or ends in a directive line with a
line feed behind it.  The second has the tree that it has alone, behind the tree of the first, or
the fault that it has alone, at a place that has the bytes and the lines of the first more.  What
is left of both is what is left of the first, and then what is left of the second where the names
that the first has reached are defined. -/
theorem flatten_append (a b : String) (ha : a = "" ∨ EndsInLine a) {ta : List Directive}
    (hta : Directive.ofText a = .ok ta) :
    (∀ tb, Directive.ofText b = .ok tb → Directive.ofText (a ++ b) = .ok (ta ++ tb)) ∧
    (∀ e, Directive.ofText b = .error e →
      Directive.ofText (a ++ b) = .error (e.shift a.utf8ByteSize (a.toList.count '\n'))) ∧
    ∀ names t, flatten (a ++ b) names = .ok t →
      ∃ x y, flatten a names = .ok x ∧
        flatten b (names.insertAll (reached ta names)) = .ok y ∧ t = x ++ y := by
  have hboth := ofText_behind ha hta b
  refine ⟨fun tb htb => ?_, fun e he => ?_, fun names t ht => ?_⟩
  · rw [hboth, htb]
    rfl
  · rw [hboth, he]
    rfl
  · obtain ⟨ds, hds, rfl⟩ := flatten_eq_ok_iff.mp ht
    rw [hboth] at hds
    cases htb : Directive.ofText b with
    | error e =>
      rw [htb] at hds
      cases hds
    | ok tb =>
      rw [htb] at hds
      cases hds
      refine ⟨_, _, flatten_eq_ok_iff.mpr ⟨ta, hta, rfl⟩, flatten_eq_ok_iff.mpr ⟨tb, htb, rfl⟩, ?_⟩
      rw [meaning_append, names_meaning]

/-- The first header has a letter of two bytes, and defines a name in a block. -/
theorem flatten_append_define :
    EndsInLine "// é\n#ifndef A\n#define B\n#endif\n" ∧
      Directive.ofText "// é\n#ifndef A\n#define B\n#endif\n" =
        .ok [.block .undefined "A" [.define "B"]] ∧
      Directive.ofText ("// é\n#ifndef A\n#define B\n#endif\n" ++ "int x;\n") =
        .ok ([.block .undefined "A" [.define "B"]] ++ [.source "int x;\n"]) ∧
      Directive.ofText ("// é\n#ifndef A\n#define B\n#endif\n" ++ "int x;\n#else\n") =
        .error (.directive ⟨40, 6, 1⟩ (.unsupported "else")) ∧
      ∃ x y, flatten "// é\n#ifndef A\n#define B\n#endif\n" .empty = .ok x ∧
        flatten "#ifdef B\nint x;\n#endif\n"
          (Names.empty.insertAll (reached [.block .undefined "A" [.define "B"]] .empty)) = .ok y ∧
        "\n\nint x;\n\n\n" = x ++ y := by
  have hline : EndsInLine "// é\n#ifndef A\n#define B\n#endif\n" := by
    refine ⟨"// é\n#ifndef A\n#define B\n".toList, "endif".toList, by decide, by cbv, ?_⟩
    have hitems : (Segment.scanText "// é\n#ifndef A\n#define B\n#endif\n").items =
        [⟨.line ⟨"ifndef", some (.word "A"), ""⟩, ⟨6, 2, 1⟩⟩,
          ⟨.line ⟨"define", some (.word "B"), ""⟩, ⟨16, 3, 1⟩⟩,
          ⟨.line ⟨"endif", none, ""⟩, ⟨26, 4, 1⟩⟩] := by cbv
    rw [hitems]
    cbv
  have htree : Directive.ofText "// é\n#ifndef A\n#define B\n#endif\n" =
      .ok [.block .undefined "A" [.define "B"]] := by cbv
  have hsource : Directive.ofText "int x;\n" = .ok [.source "int x;\n"] := by cbv
  have hfault : Directive.ofText "int x;\n#else\n" =
      .error (.directive ⟨7, 2, 1⟩ (.unsupported "else")) := by cbv
  have hflat : flatten ("// é\n#ifndef A\n#define B\n#endif\n" ++ "#ifdef B\nint x;\n#endif\n")
      .empty = .ok "\n\nint x;\n\n\n" := by cbv
  exact ⟨hline, htree, (flatten_append _ _ (.inr hline) htree).1 _ hsource,
    (flatten_append _ _ (.inr hline) htree).2.1 _ hfault,
    (flatten_append _ _ (.inr hline) htree).2.2 _ _ hflat⟩

end EngineHeader
