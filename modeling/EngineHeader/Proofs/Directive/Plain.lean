import EngineHeader.Proofs.Directive.Again
import EngineHeader.Proofs.Directive.Exact

/-!
# Headers without directive lines

Behind the white space and the comments at its beginning, a header is over, or a comment opens
that is never closed, or a directive line begins, or source text does.  Source text goes on to a
directive line or to the end.  So a header without directive lines has at most one segment, and
this takes all that is left (`shape_scanText`).
-/

namespace EngineHeader.Directive

open Text

/-! ## Where source text ends -/

/-- Between the offsets `n` and `m` stands all of the text, or what is in front of a number
sign. -/
def StopsAtHash (n m : Nat) (text : List Char) : Prop :=
  m = n + text.length ∨ ∃ k rest, m = n + k ∧ text.drop k = '#' :: rest

theorem StopsAtHash.behind {n m : Nat} {text : List Char} (k : Nat) (hk : k ≤ text.length)
    (h : StopsAtHash (n + k) m (text.drop k)) : StopsAtHash n m text := by
  rcases h with h | ⟨j, rest, h, hdrop⟩
  · rw [List.length_drop] at h
    exact .inl (by omega)
  · rw [List.drop_drop] at hdrop
    exact .inr ⟨k + j, rest, by omega, hdrop⟩

theorem commentLength_le (text : List Char) : commentLength text ≤ text.length := by
  rcases Nat.eq_zero_or_pos (commentLength text) with hzero | hpos
  · rw [hzero]
    exact Nat.zero_le _
  · rcases commentLength_cases hpos with hclosed | ⟨_, hlen⟩ | ⟨_, _, hlen⟩
    · rw [← length_take_blockComment hclosed]
      exact List.length_take_le' _ _
    · rw [hlen, ← length_take_lineLength]
      exact List.length_take_le' _ _
    · exact Nat.le_of_eq hlen

/-- Source text goes on to the end or to a number sign. -/
theorem stopsAtHash_sourceFrom (f : Bool) (n : Nat) (text : List Char) :
    StopsAtHash n (sourceFrom f n text) text := by
  fun_induction sourceFrom f n text with
  | case1 f n => exact .inl rfl
  | case2 f n text ih => exact .behind 1 (Nat.succ_le_succ (Nat.zero_le _)) ih
  | case3 f n c text hc hblank ih => exact .behind 1 (Nat.succ_le_succ (Nat.zero_le _)) ih
  | case4 f n c text hc hblank j hj ih =>
    have hlength := commentLength_le (c :: text)
    exact .behind (j + 1) (Nat.le_trans (Nat.le_of_eq hj.symm) hlength) ih
  | case5 f n c text hc hblank hz hhash =>
    obtain ⟨_, rfl⟩ : f = true ∧ c = '#' := by simpa using hhash
    exact .inr ⟨0, text, rfl, rfl⟩
  | case6 f n c text hc hblank hz hhash ih =>
    exact .behind 1 (Nat.succ_le_succ (Nat.zero_le _)) ih

/-! ## What segments there are -/

/-- Where a number sign is in front, the segment is a directive line. -/
theorem exists_line {c : Cursor} {rest : List Char} (h : (Segment.skipLayout c).rest = '#' :: rest)
    (taken : List Segment) : ∃ s ∈ (Segment.scanFrom taken c).items, ∃ l, s.content = .line l := by
  obtain ⟨_, hread⟩ := Segment.read_of_hash h
  rw [Segment.scanFrom, hread]
  exact ⟨_, Segment.mem_scanFrom List.mem_cons_self _, _, rfl⟩

/-- What the segments of a header are, where the cursor stands behind the white space and the
comments at its beginning. -/
inductive Shape (c : Cursor) : Scan Segment → Prop where
  | nothing : c.rest = [] → Shape c ⟨[], none⟩
  | unclosed : opensBlock c.rest = true → blockComment? c.rest = none →
    Shape c ⟨[], some (.unrecognized c.position "/*")⟩
  | source : Begins c.rest → Shape c ⟨[⟨.source (String.ofList c.rest), c.position⟩], none⟩
  | line {s : Scan Segment} : '#' ∈ c.rest → (∃ t ∈ s.items, ∃ l, t.content = .line l) → Shape c s

theorem shape_of_begins {c : Cursor} (h : Begins (Segment.skipLayout c).rest) :
    Shape (Segment.skipLayout c) (Segment.scanFrom [] c) := by
  rcases stopsAtHash_sourceFrom true 0 (Segment.skipLayout c).rest with hall | ⟨k, rest, hk, hhash⟩
  · rw [Nat.zero_add] at hall
    rw [scanFrom_of_source h hall]
    exact .source h
  · obtain ⟨_, hread⟩ := read_of_begins h
    rw [h.sourceFrom_true, Nat.zero_add] at hk
    obtain rfl : sourceLength (Segment.skipLayout c).rest = k := hk
    have hbehind : (Segment.skipLayout ((Segment.skipLayout c).move
        (sourceLength (Segment.skipLayout c).rest))).rest = '#' :: rest := by
      have hunit : layoutUnit ('#' :: rest) = 0 := rfl
      rw [Segment.skipLayout, Cursor.rest_move, Cursor.rest_move, hhash, extent_of_eq_zero hunit,
        List.drop_zero]
    rw [Segment.scanFrom, hread]
    refine .line ?_ (exists_line hbehind _)
    exact List.mem_of_mem_drop (hhash ▸ List.mem_cons_self)

theorem read_of_opensBlock {c : Cursor} (h : opensBlock (Segment.skipLayout c).rest = true) :
    Segment.read c = .error (.unrecognized (Segment.skipLayout c).position "/*") := by
  obtain ⟨inside, hrest⟩ := eq_of_opensBlock h
  have hne : (Segment.skipLayout c).rest ≠ [] := by
    rw [hrest]
    exact List.cons_ne_nil _ _
  have hpeek : (Segment.skipLayout c).peek 2 = "/*" := by
    rw [Cursor.peek, hrest]
    rfl
  rw [Segment.read, Segment.readHere, dif_neg hne, if_pos h, hpeek]
  rfl

theorem shape_scanText (source : String) :
    Shape (Segment.skipLayout (.ofText source)) (Segment.scanText source) := by
  have hunit : layoutUnit (Segment.skipLayout (.ofText source)).rest = 0 := unit_drop_extent rfl _
  cases hrest : (Segment.skipLayout (.ofText source)).rest with
  | nil =>
    rw [Segment.scanText, scanFrom_of_layout hrest]
    exact .nothing hrest
  | cons c rest =>
    by_cases hb : opensBlock (Segment.skipLayout (.ofText source)).rest = true
    · rw [Segment.scanText, Segment.scanFrom, read_of_opensBlock hb]
      exact .unclosed hb (OnePass.unclosed_of_layoutUnit hb hunit)
    · by_cases hhash : c = '#'
      · subst hhash
        refine .line ?_ (exists_line hrest _)
        rw [hrest]
        exact List.mem_cons_self
      · refine shape_of_begins ?_
        rw [hrest] at hunit hb ⊢
        exact begins_iff.mpr ⟨hunit, Bool.not_eq_true _ ▸ hb, hhash⟩

end EngineHeader.Directive
