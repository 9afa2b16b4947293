import EngineHeader.Declaration.Query
import EngineHeader.Proofs.FirstOfEach
import Mathlib.Data.List.Nodup

/-!
# The function pointers of a header

A header may declare a function pointer more than once, and what it declares under one name may
differ.  The first declaration of a name is the one with no function pointer of that name in front
of it (`FirstAt`).  This is said of places among the declarations, where comments and other typedefs
count as well.

`FirstDeclarations` says which list holds the first declarations of a header: they stand in it in
order, each name once, and none is left out.  There is one such list only
(`FirstDeclarations.unique`), and `Header.functions` is that list.  It is followed from the end of
the header: one more declaration is taken, behind the others, if it is a function pointer with a new
name (`functions_concat`).

Those who look for names ask for a part of the functions.  Whether a declaration is asked for
depends on its name alone.  So it is the same to ask for part of the functions and to take the
functions of a part of the header (`Header.onlyFunctions`).
-/

namespace EngineHeader

open Declaration

namespace Declaration

theorem firstOfEachName_eq (all : List Signature) :
    firstOfEachName all = firstOfEach Signature.name all := by
  induction all with
  | nil => rfl
  | cons s rest ih =>
    rw [firstOfEachName, firstOfEach_cons, ih]
    refine congrArg _ (List.filter_congr fun t _ => ?_)
    rw [bne, beq_eq_decide, decide_not]

theorem begins_iff {start name : String} :
    begins start name = true ↔ ∃ rest, name = start ++ rest := by
  rw [begins, List.isPrefixOf_iff_prefix]
  constructor
  · rintro ⟨rest, heq⟩
    refine ⟨String.ofList rest, ?_⟩
    rw [← String.toList_inj, String.toList_append, String.toList_ofList, heq]
  · rintro ⟨rest, rfl⟩
    exact ⟨rest.toList, String.toList_append.symm⟩

instance (start name : String) : Decidable (∃ rest, name = start ++ rest) :=
  decidable_of_iff _ begins_iff

/-! ## First declarations -/

/-- The declaration at a place is a function pointer, and no function pointer in front of it has its
name. -/
structure FirstAt (ds : List Declaration) (place : Nat) (s : Signature) : Prop where
  /-- It is declared at the place. -/
  declared : ds[place]? = some (.function s)
  /-- Those in front of it have other names. -/
  first : ∀ t, .function t ∈ ds.take place → t.name ≠ s.name

/-- The function pointers of some declarations, each name with its first declaration, in order. -/
structure FirstDeclarations (ds : List Declaration) (fs : List Signature) : Prop where
  /-- They are declared, in this order. -/
  sublist : (fs.map .function).Sublist ds
  /-- No two of them have one name. -/
  nodup : (fs.map Signature.name).Nodup
  /-- Every name of a function pointer is there. -/
  covers : ∀ s, .function s ∈ ds → s.name ∈ fs.map Signature.name
  /-- They are the first declarations of their names, and all of these. -/
  mem_iff : ∀ s, s ∈ fs ↔ ∃ place, FirstAt ds place s
  /-- They are in the order in which their names come first. -/
  ordered : fs.Pairwise fun s t => ∃ m n, m < n ∧ FirstAt ds m s ∧ FirstAt ds n t

namespace FirstAt

variable {ds : List Declaration} {s : Signature} {m n : Nat}

theorem lt_length (h : FirstAt ds n s) : n < ds.length :=
  (List.getElem?_eq_some_iff.mp h.declared).1

/-- A function pointer that is the first of its name is not declared in front of that. -/
theorem not_lt (hm : FirstAt ds m s) (hn : FirstAt ds n s) : ¬ m < n := by
  intro hlt
  have hmem : .function s ∈ ds.take n :=
    List.mem_of_getElem? (by rw [List.getElem?_take_of_lt hlt, hm.declared])
  exact hn.first s hmem rfl

theorem place_eq (hm : FirstAt ds m s) (hn : FirstAt ds n s) : m = n :=
  Nat.le_antisymm (Nat.not_lt.mp (hn.not_lt hm)) (Nat.not_lt.mp (hm.not_lt hn))

/-- What was first stays first when there is one more declaration, and that one is first if it is a
function pointer with a new name. -/
theorem concat_iff {d : Declaration} :
    FirstAt (ds ++ [d]) n s ↔
      FirstAt ds n s ∨
        n = ds.length ∧ d = .function s ∧ ∀ t, .function t ∈ ds → t.name ≠ s.name := by
  constructor
  · intro h
    have hle : n ≤ ds.length := by simpa [Nat.lt_succ_iff] using h.lt_length
    have hfirst := h.first
    rw [List.take_append_of_le_length hle] at hfirst
    obtain hlt | rfl := Nat.lt_or_eq_of_le hle
    · exact .inl ⟨by rw [← h.declared, List.getElem?_append_left hlt], hfirst⟩
    · rw [List.take_length] at hfirst
      exact .inr ⟨rfl, by simpa using h.declared, hfirst⟩
  · rintro (h | ⟨rfl, rfl, hnew⟩)
    · refine ⟨by rw [List.getElem?_append_left h.lt_length, h.declared], ?_⟩
      rw [List.take_append_of_le_length (Nat.le_of_lt h.lt_length)]
      exact h.first
    · refine ⟨List.getElem?_concat_length, ?_⟩
      rw [List.take_left]
      exact hnew

end FirstAt

/-- There is one list only of first declarations: they are the members of each of two, and their
places tell the order. -/
theorem FirstDeclarations.unique {ds : List Declaration} {fs gs : List Signature}
    (hf : FirstDeclarations ds fs) (hg : FirstDeclarations ds gs) : fs = gs := by
  have hperm : fs.Perm gs := by
    refine (List.perm_ext_iff_of_nodup hf.nodup.of_map hg.nodup.of_map).mpr fun s => ?_
    rw [hf.mem_iff, hg.mem_iff]
  refine List.Perm.eq_of_pairwise ?_ hf.ordered hg.ordered hperm
  rintro s t - - ⟨m, n, hlt, hs, ht⟩ ⟨n', m', hlt', ht', hs'⟩
  have hm := hs.place_eq hs'
  have hn := ht.place_eq ht'
  omega

end Declaration

namespace Header

theorem functions_eq (h : Header) : h.functions = firstOfEach Signature.name h.signatures :=
  firstOfEachName_eq h.signatures

theorem mem_signatures {h : Header} {s : Signature} :
    s ∈ h.signatures ↔ .function s ∈ h.declarations := by
  rw [signatures, List.mem_filterMap]
  constructor
  · rintro ⟨d, hd, heq⟩
    cases d <;> cases heq
    exact hd
  · intro hs
    exact ⟨_, hs, rfl⟩

theorem mem_map_functions {h : Header} {name : String} :
    name ∈ h.functions.map Signature.name ↔
      ∃ s, .function s ∈ h.declarations ∧ s.name = name := by
  rw [functions_eq, mem_map_firstOfEach, List.mem_map]
  simp only [mem_signatures]

/-- One more declaration is taken, behind the others, if it is a function pointer with a new name.
Otherwise nothing is taken. -/
theorem functions_concat (ds : List Declaration) (d : Declaration) :
    (∃ s, d = .function s ∧ (∀ t, .function t ∈ ds → t.name ≠ s.name) ∧
        (⟨ds ++ [d]⟩ : Header).functions = (⟨ds⟩ : Header).functions ++ [s]) ∨
      (∀ s, d = .function s → ∃ t, .function t ∈ ds ∧ t.name = s.name) ∧
        (⟨ds ++ [d]⟩ : Header).functions = (⟨ds⟩ : Header).functions := by
  cases d with
  | function s =>
    have hsignatures : (⟨ds ++ [.function s]⟩ : Header).signatures =
        (⟨ds⟩ : Header).signatures ++ [s] := by simp [signatures]
    have hfunctions : (⟨ds ++ [.function s]⟩ : Header).functions =
        if s.name ∈ (⟨ds⟩ : Header).signatures.map Signature.name then (⟨ds⟩ : Header).functions
        else (⟨ds⟩ : Header).functions ++ [s] := by
      rw [functions_eq, functions_eq, hsignatures, firstOfEach_concat]
    split at hfunctions
    · next hknown =>
      obtain ⟨t, ht, hname⟩ := List.mem_map.mp hknown
      refine .inr ⟨?_, hfunctions⟩
      intro u hu
      cases hu
      exact ⟨t, mem_signatures.mp ht, hname⟩
    · next hnew =>
      refine .inl ⟨s, rfl, fun t ht hname => hnew ?_, hfunctions⟩
      exact List.mem_map.mpr ⟨t, mem_signatures.mpr ht, hname⟩
  | _ =>
    refine .inr ⟨?_, ?_⟩
    · intro s hs
      cases hs
    · rw [functions_eq, functions_eq]
      simp [signatures]

/-! ## The functions are the first declarations -/

theorem functions_sublist (h : Header) : (h.functions.map .function).Sublist h.declarations := by
  have hsignatures : (h.signatures.map .function).Sublist h.declarations := by
    obtain ⟨ds⟩ := h
    induction ds with
    | nil => exact List.nil_sublist _
    | cons d ds ih =>
      cases d with
      | function s => exact ih.cons_cons _
      | _ => exact ih.cons _
  rw [functions_eq]
  exact ((firstOfEach_sublist _ _).map _).trans hsignatures

theorem functions_nodup (h : Header) : (h.functions.map Signature.name).Nodup := by
  rw [functions_eq]
  exact nodup_map_firstOfEach _ _

/-- A function pointer is taken if it is the first of its name somewhere. -/
theorem mem_functions_iff (h : Header) (s : Signature) :
    s ∈ h.functions ↔ ∃ place, FirstAt h.declarations place s := by
  obtain ⟨ds⟩ := h
  induction ds using List.reverseRecOn with
  | nil =>
    refine ⟨fun h => absurd h List.not_mem_nil, fun ⟨place, hfirst⟩ => ?_⟩
    exact absurd hfirst.lt_length (Nat.not_lt_zero _)
  | append_singleton ds d ih =>
    simp only [FirstAt.concat_iff, exists_or, exists_eq_left, ← ih]
    obtain ⟨t, rfl, hnew, heq⟩ | ⟨hknown, heq⟩ := functions_concat ds d
    · rw [heq, List.mem_append, List.mem_singleton]
      refine or_congr_right ⟨?_, fun h => (Declaration.function.inj h.1).symm⟩
      rintro rfl
      exact ⟨rfl, hnew⟩
    · rw [heq]
      refine (or_iff_left ?_).symm
      rintro ⟨hd, hnew⟩
      obtain ⟨t, ht, hname⟩ := hknown s hd
      exact hnew t ht hname

/-- The functions are in the order in which their names come first.  A function pointer that is
taken stands behind all others. -/
theorem functions_ordered (h : Header) :
    h.functions.Pairwise fun s t =>
      ∃ m n, m < n ∧ FirstAt h.declarations m s ∧ FirstAt h.declarations n t := by
  obtain ⟨ds⟩ := h
  induction ds using List.reverseRecOn with
  | nil => exact .nil
  | append_singleton ds d ih =>
    have hkept : (⟨ds⟩ : Header).functions.Pairwise fun s t =>
        ∃ m n, m < n ∧ FirstAt (ds ++ [d]) m s ∧ FirstAt (ds ++ [d]) n t := by
      refine ih.imp ?_
      rintro s t ⟨m, n, hlt, hs, ht⟩
      exact ⟨m, n, hlt, FirstAt.concat_iff.mpr (.inl hs), FirstAt.concat_iff.mpr (.inl ht)⟩
    obtain ⟨t, rfl, hnew, heq⟩ | ⟨-, heq⟩ := functions_concat ds d
    · rw [heq]
      refine List.pairwise_append.mpr ⟨hkept, List.pairwise_singleton _ _, fun s hs u hu => ?_⟩
      obtain rfl := List.mem_singleton.mp hu
      obtain ⟨m, hfirst⟩ := (mem_functions_iff ⟨ds⟩ s).mp hs
      exact ⟨m, ds.length, hfirst.lt_length, FirstAt.concat_iff.mpr (.inl hfirst),
        FirstAt.concat_iff.mpr (.inr ⟨rfl, rfl, hnew⟩)⟩
    · rw [heq]
      exact hkept

theorem firstDeclarations_functions (h : Header) :
    FirstDeclarations h.declarations h.functions where
  sublist := functions_sublist h
  nodup := functions_nodup h
  covers s hs := mem_map_functions.mpr ⟨s, hs, rfl⟩
  mem_iff := mem_functions_iff h
  ordered := functions_ordered h

/-! ## Part of the functions -/

/-- The header without the function pointers whose names are not wanted.  The other declarations
stay. -/
def onlyFunctions (h : Header) (wanted : String → Prop) [DecidablePred wanted] : Header :=
  ⟨h.declarations.filter fun
    | .function s => wanted s.name
    | _ => true⟩

theorem signatures_onlyFunctions (h : Header) (wanted : String → Prop) [DecidablePred wanted] :
    (h.onlyFunctions wanted).signatures = h.signatures.filter (wanted ·.name) := by
  obtain ⟨declarations⟩ := h
  simp only [onlyFunctions, signatures]
  induction declarations with
  | nil => rfl
  | cons d rest ih =>
    cases d with
    | function s =>
      by_cases hs : wanted s.name
      · simpa [hs] using ih
      · simpa [hs] using ih
    | comment text => simpa using ih
    | enumeration e => simpa using ih
    | typeAlias a => simpa using ih
    | struct s => simpa using ih

/-- Names can be left out of the functions or of the header. -/
theorem functions_onlyFunctions (h : Header) (wanted : String → Prop) [DecidablePred wanted] :
    (h.onlyFunctions wanted).functions = h.functions.filter (wanted ·.name) := by
  rw [functions_eq, functions_eq, signatures_onlyFunctions,
    filter_firstOfEach Signature.name (fun name => decide (wanted name))]

theorem functionsBeginning_eq (h : Header) (start : String) (excluded : List String) :
    h.functionsBeginning start excluded =
      (h.onlyFunctions fun name =>
        (∃ rest, name = start ++ rest) ∧ name ∉ excluded).functions := by
  rw [functions_onlyFunctions, functionsBeginning]
  refine List.filter_congr fun s _ => ?_
  rw [Bool.eq_iff_iff]
  simp [begins_iff]

/-- Two lists share a third out between them. -/
structure Shares (all some others : List Signature) : Prop where
  /-- The first list is part of it, in its order. -/
  some_sublist : some.Sublist all
  /-- The second list is part of it, in its order. -/
  others_sublist : others.Sublist all
  /-- No name is on both sides. -/
  disjoint : (some.map Signature.name).Disjoint (others.map Signature.name)
  /-- Together they are all of it. -/
  perm : (some ++ others).Perm all

theorem shares_functionsBeginning (h : Header) (start : String) :
    Shares h.functions (h.functionsBeginning start []) (h.functionsNotBeginning start) := by
  have hsome : h.functionsBeginning start [] = h.functions.filter (begins start ·.name) := by
    simp [functionsBeginning]
  refine ⟨List.filter_sublist, List.filter_sublist, fun name hsome hothers => ?_, ?_⟩
  · obtain ⟨s, hs, rfl⟩ := List.mem_map.mp hsome
    obtain ⟨t, ht, hname⟩ := List.mem_map.mp hothers
    have hbegins := (List.mem_filter.mp hs).2
    have hnot := (List.mem_filter.mp ht).2
    rw [hname, Bool.not_eq_true'] at hnot
    simp [hnot] at hbegins
  · rw [hsome]
    exact List.filter_append_perm _ _

/-- The functions are the first declarations of each name, in order.  Those that begin with a text
and are not excluded are the functions of the header without all others.  Those that begin with a
text and those that do not share the functions out between them, and each part is in order. -/
theorem functions_eq_iff_firstDeclarations (h : Header) (start : String) (excluded : List String) :
    (∀ fs, h.functions = fs ↔ FirstDeclarations h.declarations fs) ∧
      h.functionsBeginning start excluded =
        (h.onlyFunctions fun name =>
          (∃ rest, name = start ++ rest) ∧ name ∉ excluded).functions ∧
      Shares h.functions (h.functionsBeginning start []) (h.functionsNotBeginning start) := by
  refine ⟨fun fs => ⟨?_, (firstDeclarations_functions h).unique⟩,
    functionsBeginning_eq h start excluded, shares_functionsBeginning h start⟩
  rintro rfl
  exact firstDeclarations_functions h

/-- A header with a name that is declared twice, and differently. -/
def declaredTwice : Header :=
  ⟨[.function ⟨⟨false, "void", 1⟩, "Get", []⟩, .comment "// between",
    .function ⟨⟨false, "void", 0⟩, "InterfaceProc", []⟩, .function ⟨⟨false, "void", 0⟩, "Get", []⟩,
    .function ⟨⟨false, "void", 0⟩, "InterfacePtr", []⟩]⟩

/-- The first declaration of `Get` counts, and not the last one. -/
theorem declaredTwice_firstDeclarations :
    FirstDeclarations declaredTwice.declarations
        [⟨⟨false, "void", 1⟩, "Get", []⟩, ⟨⟨false, "void", 0⟩, "InterfaceProc", []⟩,
          ⟨⟨false, "void", 0⟩, "InterfacePtr", []⟩] ∧
      ¬ FirstDeclarations declaredTwice.declarations
        [⟨⟨false, "void", 0⟩, "InterfaceProc", []⟩, ⟨⟨false, "void", 0⟩, "Get", []⟩,
          ⟨⟨false, "void", 0⟩, "InterfacePtr", []⟩] ∧
      (declaredTwice.onlyFunctions fun name =>
          (∃ rest, name = "Interface" ++ rest) ∧ name ∉ ["InterfacePtr"]).functions =
        [⟨⟨false, "void", 0⟩, "InterfaceProc", []⟩] ∧
      Shares declaredTwice.functions
        [⟨⟨false, "void", 0⟩, "InterfaceProc", []⟩, ⟨⟨false, "void", 0⟩, "InterfacePtr", []⟩]
        [⟨⟨false, "void", 1⟩, "Get", []⟩] := by
  obtain ⟨hfirst, hpart, -⟩ :=
    functions_eq_iff_firstDeclarations declaredTwice "Interface" ["InterfacePtr"]
  obtain ⟨-, -, hshares⟩ := functions_eq_iff_firstDeclarations declaredTwice "Interface" []
  refine ⟨(hfirst _).mp rfl, fun hlast => ?_, hpart.symm.trans rfl, hshares⟩
  have hname := congrArg (List.map Signature.name) ((hfirst _).mpr hlast)
  exact absurd hname (by decide)

end Header

end EngineHeader
