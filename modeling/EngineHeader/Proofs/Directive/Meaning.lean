import EngineHeader.Header

/-!
# The meaning of directives

Flattening keeps the directives that are still to be taken on a list, block in
block.  Here the same is said by recursion on the tree.  The meaning of a list of
directives, where some names are defined, is a text and the names that are defined
behind it.

* Source text means itself.
* The definition of a name means no text, and one more name.
* The inclusion of a file means nothing.
* A block that is taken means what its body means.  A block that is not taken means
  nothing.

In a list the names go from each directive to the next, and a line feed follows
the text of each.

`flattenAll_eq` is the invariant of the list of open blocks.  The innermost block
may be exchanged for its meaning, and the names that it defines stay defined
in the blocks around it.  `flatten_eq_meaning` is the case of a single list.
-/

namespace EngineHeader.Directive

mutual

/-- The text of a directive and the names behind it. -/
def meaningOf : Directive → Names → String × Names
  | .source text, names => (text, names)
  | .define name, names => ("", names.insert name)
  | .includeFile _ _, names => ("", names)
  | .block .undefined name body, names => if name ∈ names then ("", names) else meaning body names
  | .block .defined name body, names => if name ∈ names then meaning body names else ("", names)

/-- The text of a list of directives and the names behind it. -/
def meaning : List Directive → Names → String × Names
  | [], names => ("", names)
  | d :: ds, names =>
    let (text, names) := meaningOf d names
    let (others, names) := meaning ds names
    (text ++ "\n" ++ others, names)

end

/-- A block means what its body means if its condition holds, and otherwise
nothing. -/
theorem meaningOf_block (condition : Condition) (name : String) (body : List Directive)
    (names : Names) :
    meaningOf (.block condition name body) names =
      if condition.holds name names then meaning body names else ("", names) := by
  cases condition with
  | defined => simp [meaningOf, Condition.holds]
  | undefined => by_cases h : name ∈ names <;> simp [meaningOf, Condition.holds, h]

/-! ## Exchanging a block for its meaning -/

/-- More text, and other names. -/
def Flattened.follow (f : Flattened) (m : String × Names) : Flattened := ⟨m.2, f.text ++ m.1⟩

theorem Flattened.follow_cons (f : Flattened) (d : Directive) (ds : List Directive) :
    ((f.follow (meaningOf d f.names)).write "\n").follow
        (meaning ds (meaningOf d f.names).2) = f.follow (meaning (d :: ds) f.names) := by
  simp [follow, write, meaning, String.append_assoc]

/-- A block that is left ends its output with a line feed, and the block around it
goes on. -/
theorem flattenAll_leave (f : Flattened) (left : List Directive) (outer : List (List Directive)) :
    flattenAll f ([] :: left :: outer) = flattenAll (f.write "\n") (left :: outer) := by
  rw [flattenAll]

mutual

/-- The first directive of the innermost block may be exchanged for its meaning. -/
theorem flattenAll_step : ∀ (d : Directive) (f : Flattened) (left : List Directive)
    (outer : List (List Directive)),
    flattenAll f ((d :: left) :: outer) =
      flattenAll ((f.follow (meaningOf d f.names)).write "\n") (left :: outer)
  | .source text, f, left, outer => by
      rw [flattenAll, meaningOf]
      rfl
  | .define name, f, left, outer => by
      rw [flattenAll, meaningOf]
      simp [Flattened.follow]
  | .includeFile name angled, f, left, outer => by
      rw [flattenAll, meaningOf]
      simp [Flattened.follow]
  | .block condition name body, f, left, outer => by
      rw [flattenAll, meaningOf_block]
      split
      · rw [flattenAll_eq body f (left :: outer), flattenAll_leave]
      · simp [Flattened.follow]

/-- The innermost block may be exchanged for its meaning. -/
theorem flattenAll_eq : ∀ (ds : List Directive) (f : Flattened) (outer : List (List Directive)),
    flattenAll f (ds :: outer) = flattenAll (f.follow (meaning ds f.names)) ([] :: outer)
  | [], f, outer => by
      simp [meaning, Flattened.follow]
  | d :: ds, f, outer => by
      rw [flattenAll_step d f ds outer, flattenAll_eq ds _ outer]
      congr 1
      exact f.follow_cons d ds

end

/-- A single list that is left may be exchanged for its meaning. -/
theorem flattenAll_singleton (f : Flattened) (directives : List Directive) :
    flattenAll f [directives] = f.follow (meaning directives f.names) := by
  rw [flattenAll_eq, flattenAll]

/-- Directives behind others mean what they mean where the names of the others are defined. -/
theorem meaning_append (ds es : List Directive) (names : Names) :
    meaning (ds ++ es) names =
      ((meaning ds names).1 ++ (meaning es (meaning ds names).2).1,
        (meaning es (meaning ds names).2).2) := by
  induction ds generalizing names with
  | nil => simp [meaning]
  | cons d ds ih => simp [meaning, ih, String.append_assoc]

/-- The text of a directive that comes last, with the line feed behind it. -/
theorem meaning_concat (ds : List Directive) (d : Directive) (names : Names) :
    (meaning (ds ++ [d]) names).1 =
      (meaning ds names).1 ++ (meaningOf d (meaning ds names).2).1 ++ "\n" := by
  simp [meaning_append, meaning, String.append_assoc]

/-- Flattening gives the text that directives mean. -/
theorem flatten_eq_meaning (directives : List Directive) (names : Names) :
    flatten directives names = (meaning directives names).1 := by
  rw [flatten, flattenAll_eq, flattenAll]
  simp [Flattened.follow]

end EngineHeader.Directive

namespace EngineHeader

open Directive

/-- A header is flattened if it has a tree, and then to what the tree means. -/
theorem flatten_eq_ok_iff {source t : String} {names : Names} :
    flatten source names = .ok t ↔
      ∃ ds, Directive.ofText source = .ok ds ∧ (meaning ds names).1 = t := by
  have hmeaning (ds : List Directive) : Directive.flatten ds names = (meaning ds names).1 := by
    rw [Directive.flatten, flattenAll_singleton, Flattened.follow, String.empty_append]
  rw [flatten]
  cases Directive.ofText source with
  | error e => simp [bind, Except.bind]
  | ok ds => simp [bind, Except.bind, pure, Except.pure, hmeaning]

end EngineHeader
