/-!
# Sets of names

The names that count as defined.  A set remembers the order in which its names
came in, and a name that is already there keeps its place.
-/

namespace EngineHeader

/-- A set of names, in the order of their definition. -/
structure Names where
  /-- The names, oldest first. -/
  toList : List String
  /-- No name is there twice. -/
  nodup : toList.Nodup
deriving DecidableEq, Repr

namespace Names

/-- No names. -/
def empty : Names := ⟨[], List.nodup_nil⟩

instance : Membership String Names := ⟨fun names name => name ∈ names.toList⟩

instance (name : String) (names : Names) : Decidable (name ∈ names) :=
  inferInstanceAs (Decidable (name ∈ names.toList))

theorem mem_def {name : String} {names : Names} : name ∈ names ↔ name ∈ names.toList := Iff.rfl

/-- The set with one more name, which comes last if it is new. -/
def insert (names : Names) (name : String) : Names :=
  if h : name ∈ names.toList then names
  else ⟨names.toList ++ [name], by
    rw [List.nodup_append]
    refine ⟨names.nodup, List.nodup_cons.mpr ⟨List.not_mem_nil, List.nodup_nil⟩, ?_⟩
    intro a ha b hb hab
    exact h (List.mem_singleton.mp hb ▸ hab ▸ ha)⟩

/-- The set with more names, one after the other. -/
def insertAll (names : Names) (more : List String) : Names := more.foldl insert names

/-- The set of the names in a list. -/
def ofList (names : List String) : Names := empty.insertAll names

/-- The name that C++ compilers define. -/
def cplusplusName : String := "__cplusplus"

/-- What a C++ compiler starts from. -/
def cplusplus : Names := empty.insert cplusplusName

/-! ## Members -/

@[simp] theorem not_mem_empty (name : String) : name ∉ empty := List.not_mem_nil

@[simp] theorem mem_insert {names : Names} {a b : String} :
    a ∈ names.insert b ↔ a ∈ names ∨ a = b := by
  simp only [mem_def, insert]
  split
  next h => exact ⟨Or.inl, fun ha => ha.elim id fun he => he ▸ h⟩
  next => simp

@[simp] theorem mem_insertAll {names : Names} {more : List String} {a : String} :
    a ∈ names.insertAll more ↔ a ∈ names ∨ a ∈ more := by
  induction more generalizing names with
  | nil => simp [insertAll]
  | cons b more ih =>
    have h : names.insertAll (b :: more) = (names.insert b).insertAll more := rfl
    rw [h, ih, mem_insert, List.mem_cons, or_assoc]

end Names

end EngineHeader
