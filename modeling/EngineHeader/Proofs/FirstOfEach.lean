import EngineHeader.Names
import Mathlib.Data.List.Induction

/-!
# The first item of each key

Where several items of a list have one key, the first of them counts.  `firstOfEach key all` are the
items of `all` whose key no item in front of them has, in their order.  This is said of places in
the list, and of nothing that is done to it.

A list is often gone through once, with the items that were taken so far at hand, and an item is
taken if its key is new (`addNew`).  The items that are taken in this way are the first of each key
(`foldl_addNew`).  One step is `firstOfEach_concat`: one more item at the end either adds nothing or
comes last.  The other lemmas follow from this step by induction from the end.

* The first of each key are all of them in order, less some (`firstOfEach_sublist`).
* No two of them have one key (`nodup_map_firstOfEach`).
* Where all items of a key are kept or all are left out, it does not matter whether that is done
  before or after (`filter_firstOfEach`).

A set of names is such a list, where each name is its own key (`Names.toList_ofList`).
-/

namespace EngineHeader

variable {α κ : Type} [DecidableEq κ] {key : α → κ} {all : List α}

/-- The items whose key no item in front of them has, in order. -/
def firstOfEach (key : α → κ) (all : List α) : List α :=
  (all.zipIdx.filter fun (a, place) => key a ∉ (all.take place).map key).map Prod.fst

/-- The items that were taken, and one more if its key is new. -/
def addNew (key : α → κ) (taken : List α) (a : α) : List α :=
  if key a ∈ taken.map key then taken else taken ++ [a]

/-! ## One more item -/

@[simp] theorem firstOfEach_nil : firstOfEach key [] = [] := rfl

/-- One more item is the first of its key if the others do not have it, and then it comes last.  The
places of the others are the same, and so is what stands in front of them. -/
theorem firstOfEach_concat (all : List α) (a : α) :
    firstOfEach key (all ++ [a]) =
      if key a ∈ all.map key then firstOfEach key all else firstOfEach key all ++ [a] := by
  have hfront : (all.zipIdx.filter fun (b, place) => key b ∉ ((all ++ [a]).take place).map key) =
      all.zipIdx.filter fun (b, place) => key b ∉ (all.take place).map key := by
    refine List.filter_congr fun ⟨b, place⟩ hmem => ?_
    have hplace := (List.mem_zipIdx hmem).2.1
    simp only [List.take_append_of_le_length (show place ≤ all.length by omega)]
  rw [firstOfEach, List.zipIdx_append, List.filter_append, List.map_append, hfront, ← firstOfEach]
  split
  · next hmem => simp [hmem]
  · next hmem => simp [hmem]

/-- The first of each key have all the keys. -/
theorem mem_map_firstOfEach {k : κ} :
    k ∈ (firstOfEach key all).map key ↔ k ∈ all.map key := by
  induction all using List.reverseRecOn with
  | nil => rfl
  | append_singleton all a ih =>
    rw [firstOfEach_concat]
    split
    · next hmem =>
      rw [ih, List.map_append, List.mem_append]
      refine ⟨.inl, fun h => h.elim id fun h => ?_⟩
      rwa [List.mem_singleton.mp h]
    · rw [List.map_append, List.map_append, List.mem_append, List.mem_append, ih]

/-- Where each item is taken if its key is new, the first of each key are taken. -/
theorem foldl_addNew (key : α → κ) (all : List α) :
    all.foldl (addNew key) [] = firstOfEach key all := by
  induction all using List.reverseRecOn with
  | nil => rfl
  | append_singleton all a ih =>
    rw [List.foldl_append, ih, firstOfEach_concat, List.foldl_cons, List.foldl_nil, addNew]
    simp only [mem_map_firstOfEach]

/-! ## What is taken -/

theorem firstOfEach_sublist (key : α → κ) (all : List α) :
    (firstOfEach key all).Sublist all := by
  have hsublist := (List.filter_sublist (l := all.zipIdx)
    (p := fun (a, place) => key a ∉ (all.take place).map key)).map Prod.fst
  rwa [List.zipIdx_map_fst] at hsublist

theorem nodup_map_firstOfEach (key : α → κ) (all : List α) :
    ((firstOfEach key all).map key).Nodup := by
  induction all using List.reverseRecOn with
  | nil => exact List.nodup_nil
  | append_singleton all a ih =>
    rw [firstOfEach_concat]
    split
    · exact ih
    · next hnew =>
      rw [List.map_append, List.nodup_append]
      refine ⟨ih, List.pairwise_singleton _ _, fun k hk k' hk' heq => hnew ?_⟩
      rw [← List.mem_singleton.mp hk', ← heq]
      exact mem_map_firstOfEach.mp hk

/-- What depends on the key alone may be left out before or after. -/
theorem filter_firstOfEach (key : α → κ) (keep : κ → Bool) (all : List α) :
    (firstOfEach key all).filter (fun a => keep (key a)) =
      firstOfEach key (all.filter fun a => keep (key a)) := by
  induction all using List.reverseRecOn with
  | nil => rfl
  | append_singleton all a ih =>
    rw [firstOfEach_concat, List.filter_append]
    cases hkeep : keep (key a) with
    | false =>
      rw [List.filter_cons_of_neg (by simp [hkeep]), List.filter_nil, List.append_nil, ← ih]
      split
      · rfl
      · rw [List.filter_append, List.filter_cons_of_neg (by simp [hkeep]), List.filter_nil,
          List.append_nil]
    | true =>
      have hsame : key a ∈ (all.filter fun b => keep (key b)).map key ↔ key a ∈ all.map key := by
        simp only [List.mem_map, List.mem_filter]
        constructor
        · rintro ⟨b, ⟨hb, _⟩, heq⟩
          exact ⟨b, hb, heq⟩
        · rintro ⟨b, hb, heq⟩
          exact ⟨b, ⟨hb, heq ▸ hkeep⟩, heq⟩
      rw [List.filter_cons_of_pos (by simp [hkeep]), List.filter_nil, firstOfEach_concat]
      simp only [hsame]
      split
      · exact ih
      · rw [List.filter_append, ih, List.filter_cons_of_pos (by simp [hkeep]), List.filter_nil]

/-- The first item is taken, and no other of its key is. -/
theorem firstOfEach_cons (key : α → κ) (a : α) (all : List α) :
    firstOfEach key (a :: all) = a :: (firstOfEach key all).filter (key · ≠ key a) := by
  induction all using List.reverseRecOn with
  | nil => rfl
  | append_singleton all b ih =>
    have hlast : firstOfEach key (a :: (all ++ [b])) = _ := firstOfEach_concat (a :: all) b
    rw [hlast, firstOfEach_concat, ih, List.map_cons]
    by_cases hkey : key b = key a
    · rw [if_pos (by simp [hkey])]
      split
      · rfl
      · rw [List.filter_append, List.filter_cons_of_neg (by simp [hkey]), List.filter_nil,
          List.append_nil]
    · simp only [List.mem_cons, hkey, false_or]
      split
      · rfl
      · rw [List.filter_append, List.filter_cons_of_pos (by simp [hkey]), List.filter_nil,
          List.cons_append]

example : firstOfEach Prod.fst [(1, 'a'), (2, 'b'), (1, 'c'), (3, 'd'), (2, 'e')] =
    [(1, 'a'), (2, 'b'), (3, 'd')] := by decide

/-! ## Sets of names -/

namespace Names

theorem toList_insert (names : Names) (name : String) :
    (names.insert name).toList = addNew id names.toList name := by
  rw [insert, addNew]
  split
  · next hmem => simp [hmem]
  · next hmem => simp [hmem]

/-- A set has the names of a list in the order in which they come first. -/
theorem toList_ofList (names : List String) : (ofList names).toList = firstOfEach id names := by
  rw [← foldl_addNew, ofList, insertAll]
  exact (List.foldl_hom toList fun names name => (toList_insert names name).symm).symm

end Names

end EngineHeader
