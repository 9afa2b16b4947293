import EngineHeader.Header
import Mathlib

/-!
# Only tested names matter

What is left of a header depends on the names that its blocks test, and on no others.  Two sets of
names that agree on these leave the same text (`flattenAll_alike`), and so a header is read alike
where it is configured alike, apart from names that it does not test (`Header.read_of_tested`).

The two runs are compared step by step.  They have the same blocks open, because each test was
answered alike.  Their texts are the same, and their sets may differ, but not on tested names: a
definition adds its name to both (`Alike`).
-/

namespace EngineHeader.Directive

mutual

/-- The names that a directive tests, at any depth. -/
def testedOf : Directive → List String
  | .source _ => []
  | .define _ => []
  | .includeFile _ _ => []
  | .block _ name body => name :: tested body

/-- The names that directives test, at any depth. -/
def tested : List Directive → List String
  | [] => []
  | d :: ds => testedOf d ++ tested ds

end

/-- The sets have the same names among these. -/
def AgreeOn (among : List String) (names others : Names) : Prop :=
  ∀ name ∈ among, name ∈ names ↔ name ∈ others

instance (among : List String) (names others : Names) : Decidable (AgreeOn among names others) :=
  inferInstanceAs (Decidable (∀ name ∈ among, name ∈ names ↔ name ∈ others))

variable {among : List String} {names others : Names}

/-- A definition adds its name to both sets. -/
theorem AgreeOn.insert (h : AgreeOn among names others) (name : String) :
    AgreeOn among (names.insert name) (others.insert name) := by
  intro n hn
  rw [Names.mem_insert, Names.mem_insert, h n hn]

/-- Tests of these names come out alike. -/
theorem AgreeOn.holds_eq (h : AgreeOn among names others) {name : String} (hname : name ∈ among)
    (condition : Condition) : condition.holds name names = condition.holds name others := by
  have hiff := h name hname
  cases condition with
  | defined => simp only [Condition.holds, hiff]
  | undefined => simp only [Condition.holds, hiff]

/-! ## Two runs -/

/-- Two runs have written the same, and have the same names among these. -/
structure Alike (among : List String) (f g : Flattened) : Prop where
  text : f.text = g.text
  names : AgreeOn among f.names g.names

variable {f g : Flattened}

theorem Alike.write (h : Alike among f g) (text : String) :
    Alike among (f.write text) (g.write text) := by
  refine ⟨?_, h.names⟩
  rw [Flattened.write, Flattened.write, h.text]

theorem Alike.define (h : Alike among f g) (name : String) :
    Alike among { f with names := f.names.insert name } { g with names := g.names.insert name } :=
  ⟨h.text, h.names.insert name⟩

/-- The names that the blocks still to be taken test are among these. -/
def Among (among : List String) (stack : List (List Directive)) : Prop :=
  ∀ ds ∈ stack, tested ds ⊆ among

theorem among_cons {d : Directive} {left : List Directive} {outer : List (List Directive)}
    (h : Among among ((d :: left) :: outer)) :
    testedOf d ⊆ among ∧ Among among (left :: outer) := by
  obtain ⟨hfirst, houter⟩ := List.forall_mem_cons.mp h
  rw [tested, List.append_subset] at hfirst
  exact ⟨hfirst.1, List.forall_mem_cons.mpr ⟨hfirst.2, houter⟩⟩

/-- Two runs over the same blocks that are alike stay alike to the end. -/
theorem flattenAll_alike {stack : List (List Directive)} (h : Alike among f g)
    (hstack : Among among stack) : Alike among (flattenAll f stack) (flattenAll g stack) := by
  fun_induction flattenAll f stack generalizing g with
  | case1 f =>
    rw [flattenAll]
    exact h
  | case2 f =>
    rw [flattenAll]
    exact h
  | case3 f left outer ih =>
    rw [flattenAll]
    exact ih (h.write "\n") (List.forall_mem_cons.mp hstack).2
  | case4 f text left outer ih =>
    rw [flattenAll]
    exact ih ((h.write text).write "\n") (among_cons hstack).2
  | case5 f name left outer ih =>
    rw [flattenAll]
    exact ih ((h.define name).write "\n") (among_cons hstack).2
  | case6 f name angled left outer ih =>
    rw [flattenAll]
    exact ih (h.write "\n") (among_cons hstack).2
  | case7 f condition name body left outer hholds ih =>
    obtain ⟨hblock, hleft⟩ := among_cons hstack
    rw [testedOf, List.cons_subset] at hblock
    rw [flattenAll, ← h.names.holds_eq hblock.1, if_pos hholds]
    exact ih h (List.forall_mem_cons.mpr ⟨hblock.2, hleft⟩)
  | case8 f condition name body left outer hholds ih =>
    obtain ⟨hblock, hleft⟩ := among_cons hstack
    rw [testedOf, List.cons_subset] at hblock
    rw [flattenAll, ← h.names.holds_eq hblock.1, if_neg hholds]
    exact ih (h.write "\n") hleft

/-- Sets of names that agree on what is tested leave the same text. -/
theorem flatten_eq_of_agreeOn {ds : List Directive} (h : AgreeOn (tested ds) names others) :
    flatten ds names = flatten ds others := by
  have hstack : Among (tested ds) [ds] := List.forall_mem_singleton.mpr (List.Subset.refl _)
  have hbegin : Alike (tested ds) ⟨names, ""⟩ ⟨others, ""⟩ := ⟨rfl, h⟩
  exact (flattenAll_alike hbegin hstack).text

end EngineHeader.Directive

namespace EngineHeader

open Directive

/-- The names that count as defined are those that are listed, and that of C++ compilers if it is
asked for. -/
theorem Config.mem_names {c : Config} {name : String} :
    name ∈ c.names ↔ c.cplusplus = true ∧ name = Names.cplusplusName ∨ name ∈ c.defines := by
  rw [names, Names.mem_insertAll]
  cases c.cplusplus with
  | true => simp [Names.cplusplus]
  | false => simp

/-- Where sets agree on the names that a header tests, it is flattened alike, errors included. -/
theorem flatten_eq_of_tested {source : String} {names others : Names}
    (h : ∀ ds, Directive.ofText source = .ok ds → AgreeOn (tested ds) names others) :
    flatten source names = flatten source others := by
  rw [flatten, flatten]
  cases htree : Directive.ofText source with
  | error e => rfl
  | ok ds => exact congrArg Except.ok (flatten_eq_of_agreeOn (h ds htree))

/-- Only the names that a header tests can influence it.  Directives leave the same text where the
names that they test are defined alike.  So a header is read alike, errors included, by two
configurations of one dialect that have the same names among those it tests.  A configuration has
the names that it lists, in whatever order and however often, and that of C++ compilers either by
listing it or by asking for C++. -/
theorem Header.read_of_tested :
    (∀ (ds : List Directive) (names others : Names), AgreeOn (tested ds) names others →
      Directive.flatten ds names = Directive.flatten ds others) ∧
    (∀ (source : String) (c c' : Config), c.dialect = c'.dialect →
      (∀ ds, Directive.ofText source = .ok ds → AgreeOn (tested ds) c.names c'.names) →
      Header.read c source = Header.read c' source) ∧
    ∀ (c : Config) (name : String),
      name ∈ c.names ↔ c.cplusplus = true ∧ name = Names.cplusplusName ∨ name ∈ c.defines := by
  refine ⟨fun ds names others h => flatten_eq_of_agreeOn h, fun source c c' hdialect h => ?_,
    fun c name => Config.mem_names⟩
  rw [read, read, flatten_eq_of_tested h, hdialect]

/-- The names are listed in another order, one of them twice, with others that are not tested, and
C++ is asked for by its name. -/
theorem Header.read_of_tested_cplusplus :
    Directive.ofText "#ifdef __cplusplus\n#ifndef B\n#define X\ntypedef A *\n#endif\n#endif\n" =
        .ok [.block .defined "__cplusplus"
          [.block .undefined "B" [.define "X", .source "typedef A *\n"]]] ∧
      AgreeOn (tested [.block .defined "__cplusplus"
          [.block .undefined "B" [.define "X", .source "typedef A *\n"]]])
        (Config.names ⟨.native, true, ["A", "X"]⟩)
        (Config.names ⟨.native, false, ["Y", "A", "__cplusplus", "A"]⟩) ∧
      Header.read ⟨.native, true, ["A", "X"]⟩
          "#ifdef __cplusplus\n#ifndef B\n#define X\ntypedef A *\n#endif\n#endif\n" =
        Header.read ⟨.native, false, ["Y", "A", "__cplusplus", "A"]⟩
          "#ifdef __cplusplus\n#ifndef B\n#define X\ntypedef A *\n#endif\n#endif\n" := by
  have hscan : Segment.scanText
      "#ifdef __cplusplus\n#ifndef B\n#define X\ntypedef A *\n#endif\n#endif\n" =
      ⟨[⟨.line ⟨"ifdef", some (.word "__cplusplus"), ""⟩, ⟨0, 1, 1⟩⟩,
        ⟨.line ⟨"ifndef", some (.word "B"), ""⟩, ⟨19, 2, 1⟩⟩,
        ⟨.line ⟨"define", some (.word "X"), ""⟩, ⟨29, 3, 1⟩⟩, ⟨.source "typedef A *\n", ⟨39, 4, 1⟩⟩,
        ⟨.line ⟨"endif", none, ""⟩, ⟨51, 5, 1⟩⟩, ⟨.line ⟨"endif", none, ""⟩, ⟨58, 6, 1⟩⟩],
        none⟩ := by cbv
  have htree : Directive.ofText
      "#ifdef __cplusplus\n#ifndef B\n#define X\ntypedef A *\n#endif\n#endif\n" =
      .ok [.block .defined "__cplusplus"
        [.block .undefined "B" [.define "X", .source "typedef A *\n"]]] := by
    rw [Directive.ofText, hscan]
    rfl
  have hagree : AgreeOn (tested [.block .defined "__cplusplus"
        [.block .undefined "B" [.define "X", .source "typedef A *\n"]]])
      (Config.names ⟨.native, true, ["A", "X"]⟩)
      (Config.names ⟨.native, false, ["Y", "A", "__cplusplus", "A"]⟩) := by decide
  refine ⟨htree, hagree, Header.read_of_tested.2.1 _ _ _ rfl ?_⟩
  intro ds hds
  rw [htree] at hds
  cases hds
  exact hagree

end EngineHeader
