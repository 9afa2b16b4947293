import EngineHeader.Text.Character
import EngineHeader.Text.Comment
import Mathlib.Data.List.TakeWhile

/-!
# Comments at the head of a text

What the lengths of comments say about the text.  A closed block comment is a slash, a
star and what follows through the first star and slash (`exists_of_blockComment`), and
it is the same comment if the text stops behind it (`blockComment_take`).  What such a
comment is can also be said without measuring it (`isBlockComment_iff`).  A line comment
goes up to a line feed or to the end of the text (`drop_lineLength`).
-/

namespace EngineHeader.Text

/-! ## How comments begin -/

theorem eq_of_opensBlock {text : List Char} (h : opensBlock text = true) :
    ∃ inside, text = '/' :: '*' :: inside := by
  unfold opensBlock at h
  split at h
  · exact ⟨_, rfl⟩
  · cases h

theorem eq_of_opensLine {text : List Char} (h : opensLine text = true) :
    ∃ inside, text = '/' :: '/' :: inside := by
  unfold opensLine at h
  split at h
  · exact ⟨_, rfl⟩
  · cases h

/-- A comment begins with a slash. -/
theorem opens_of_ne {c : Char} (h : c ≠ '/') (text : List Char) :
    opensBlock (c :: text) = false ∧ opensLine (c :: text) = false := by
  constructor
  · cases hb : opensBlock (c :: text) with
    | false => rfl
    | true =>
      obtain ⟨inside, heq⟩ := eq_of_opensBlock hb
      exact absurd (List.cons.inj heq).1 h
  · cases hl : opensLine (c :: text) with
    | false => rfl
    | true =>
      obtain ⟨inside, heq⟩ := eq_of_opensLine hl
      exact absurd (List.cons.inj heq).1 h

/-- No comment begins with a blank. -/
theorem opens_of_isBlank {c : Char} (h : isBlank c = true) (text : List Char) :
    opensBlock (c :: text) = false ∧ opensLine (c :: text) = false := by
  refine opens_of_ne ?_ text
  rintro rfl
  cases h

/-! ## Block comments -/

theorem closingFrom_ge {n m : Nat} {text : List Char} (h : closingFrom n text = some m) :
    n + 2 ≤ m := by
  fun_induction closingFrom n text with
  | case1 n => cases h
  | case2 n text => cases h; exact Nat.le_refl _
  | case3 n c text _ ih => have := ih h; omega

theorem exists_of_blockComment {n : Nat} {text : List Char} (h : blockComment? text = some n) :
    ∃ inside k, text = '/' :: '*' :: inside ∧ n = k + 2 ∧ closingFrom 0 inside = some (0 + k) := by
  unfold blockComment? at h
  split at h
  · rename_i inside
    obtain ⟨k, hk, rfl⟩ := Option.map_eq_some_iff.mp h
    exact ⟨inside, k, rfl, rfl, by rwa [Nat.zero_add]⟩
  · cases h

/-- The text through the first star and slash is closed as the whole text is, and it ends
with a slash. -/
theorem closingFrom_take {n k : Nat} {text : List Char} (h : closingFrom n text = some (n + k)) :
    closingFrom n (text.take k) = some (n + k) ∧ k ≤ text.length ∧
      ∃ front, text.take k = front ++ ['/'] := by
  fun_induction closingFrom n text generalizing k with
  | case1 n => cases h
  | case2 n text =>
    obtain rfl : k = 2 := by simpa using h.symm
    exact ⟨rfl, by simp, ['*'], rfl⟩
  | case3 n c text hne ih =>
    have := closingFrom_ge h
    obtain ⟨k, rfl⟩ : ∃ j, k = j + 1 := ⟨k - 1, by omega⟩
    have hassoc : n + (k + 1) = n + 1 + k := by omega
    rw [hassoc] at h ⊢
    obtain ⟨hclosed, hle, front, hfront⟩ := ih h
    rw [List.take_succ_cons]
    refine ⟨?_, Nat.succ_le_succ hle, c :: front, by rw [hfront, List.cons_append]⟩
    rw [closingFrom.eq_3 n c _ ?_, hclosed]
    intro rest hc htake
    have htext : text = '/' :: (rest ++ text.drop k) := by
      rw [← List.cons_append, ← htake, List.take_append_drop]
    exact hne _ hc htext

/-- A block comment that is closed is one without the text behind it. -/
theorem blockComment_take {n : Nat} {text : List Char} (h : blockComment? text = some n) :
    blockComment? (text.take n) = some (text.take n).length := by
  obtain ⟨inside, k, rfl, rfl, hclosed⟩ := exists_of_blockComment h
  obtain ⟨htake, hle, _⟩ := closingFrom_take hclosed
  rw [Nat.zero_add] at htake
  simp only [List.take_succ_cons, blockComment?, closing?, htake, Option.map_some,
    List.length_cons, List.length_take, Nat.min_eq_left hle]

/-- A block comment that is closed ends with a slash. -/
theorem take_blockComment {n : Nat} {text : List Char} (h : blockComment? text = some n) :
    ∃ front, text.take n = front ++ ['/'] := by
  obtain ⟨inside, k, rfl, rfl, hclosed⟩ := exists_of_blockComment h
  obtain ⟨_, _, front, hfront⟩ := closingFrom_take hclosed
  refine ⟨'/' :: '*' :: front, ?_⟩
  rw [List.take_succ_cons, List.take_succ_cons, hfront, List.cons_append, List.cons_append]

/-- What is closed in a text is closed there whatever follows. -/
theorem closingFrom_append {n m : Nat} {a : List Char} (h : closingFrom n a = some m)
    (b : List Char) : closingFrom n (a ++ b) = some m := by
  fun_induction closingFrom n a with
  | case1 n => cases h
  | case2 n text => exact h
  | case3 n c text hne ih =>
    rw [List.cons_append, closingFrom.eq_3 n c _ ?_, ih h]
    intro rest hc happend
    cases text with
    | nil => cases h
    | cons x text =>
      obtain ⟨rfl, -⟩ := List.cons.inj happend
      exact hne text hc rfl

/-- A block comment that is closed is one with any text behind it. -/
theorem blockComment_append {n : Nat} {a : List Char} (h : blockComment? a = some n)
    (b : List Char) : blockComment? (a ++ b) = some n := by
  obtain ⟨inside, k, rfl, rfl, hclosed⟩ := exists_of_blockComment h
  rw [Nat.zero_add] at hclosed
  have happend := closingFrom_append hclosed b
  simp only [List.cons_append, blockComment?, closing?, happend, Option.map_some]

theorem closingFrom_append_feed {n : Nat} {text : List Char} (h : closingFrom n text = none) :
    closingFrom n (text ++ ['\n']) = none := by
  fun_induction closingFrom n text with
  | case1 n => rfl
  | case2 n text => cases h
  | case3 n c text hne ih =>
    rw [List.cons_append, closingFrom.eq_3 n c _ ?_, ih h]
    intro rest hc happend
    cases text with
    | nil => cases happend
    | cons x text =>
      obtain ⟨rfl, -⟩ := List.cons.inj happend
      exact hne text hc rfl

/-- A line feed closes no block comment. -/
theorem blockComment_append_feed {text : List Char} (ho : opensBlock text = true)
    (h : blockComment? text = none) : blockComment? (text ++ ['\n']) = none := by
  obtain ⟨inside, rfl⟩ := eq_of_opensBlock ho
  rw [blockComment?, Option.map_eq_none_iff] at h
  have happend := closingFrom_append_feed h
  simp only [List.cons_append, blockComment?, closing?, happend, Option.map_none]

theorem length_take_blockComment {n : Nat} {text : List Char} (h : blockComment? text = some n) :
    (text.take n).length = n := by
  have hwhole := blockComment_append (blockComment_take h) (text.drop n)
  rw [List.take_append_drop, h] at hwhole
  exact (Option.some.inj hwhole).symm

theorem blockComment_pos {n : Nat} {text : List Char} (h : blockComment? text = some n) :
    0 < n := by
  obtain ⟨_, k, _, rfl, _⟩ := exists_of_blockComment h
  exact Nat.succ_pos _

/-! ## Block comments alone -/

/-- A block comment: a slash and a star open it, and behind them the first star and slash are at the
end. -/
def IsBlockComment (text : List Char) : Prop :=
  ∃ inside, text = '/' :: '*' :: (inside ++ ['*', '/']) ∧ ¬ ['*', '/'] <:+: inside ++ ['*']

theorem closingFrom_of_first {inside : List Char} (h : ¬ ['*', '/'] <:+: inside ++ ['*'])
    (n : Nat) (behind : List Char) :
    closingFrom n (inside ++ '*' :: '/' :: behind) = some (n + inside.length + 2) := by
  induction inside generalizing n with
  | nil => rfl
  | cons c inside ih =>
    have hinside : ¬ ['*', '/'] <:+: inside ++ ['*'] :=
      fun hinfix => h (List.infix_cons_iff.mpr (.inr hinfix))
    rw [List.cons_append, closingFrom.eq_3 n c _ ?_, ih hinside, List.length_cons]
    · congr 1
      omega
    intro rest hc hrest
    cases inside with
    | nil => cases hrest
    | cons x inside =>
      cases hrest
      subst hc
      exact h ⟨[], inside ++ ['*'], rfl⟩

theorem first_of_closingFrom {n : Nat} {text : List Char}
    (h : closingFrom n text = some (n + text.length)) :
    ∃ inside, text = inside ++ ['*', '/'] ∧ ¬ ['*', '/'] <:+: inside ++ ['*'] := by
  fun_induction closingFrom n text with
  | case1 n => cases h
  | case2 n text =>
    have hlength : text.length = 0 := by simpa using h
    obtain rfl := List.length_eq_zero_iff.mp hlength
    refine ⟨[], rfl, ?_⟩
    intro hinfix
    have hle := hinfix.length_le
    exact absurd hle (by decide)
  | case3 n c text hne ih =>
    rw [List.length_cons, Nat.add_comm text.length, ← Nat.add_assoc] at h
    obtain ⟨inside, rfl, hinside⟩ := ih h
    refine ⟨c :: inside, rfl, ?_⟩
    intro hinfix
    rcases List.infix_cons_iff.mp hinfix with ⟨rest, hrest⟩ | hinfix
    · obtain ⟨hc, hrest⟩ := List.cons.inj hrest
      cases inside with
      | nil => cases hrest
      | cons x inside =>
        obtain ⟨hx, -⟩ := List.cons.inj hrest
        exact hne _ hc.symm (by rw [← hx]; rfl)
    · exact hinside hinfix

/-- A text that is all of the block comment at its head is a block comment. -/
theorem isBlockComment_iff {text : List Char} :
    IsBlockComment text ↔ blockComment? text = some text.length := by
  constructor
  · rintro ⟨inside, rfl, hinside⟩
    simp only [blockComment?, closing?, closingFrom_of_first hinside, Option.map_some]
    simp
  · intro h
    obtain ⟨inside, k, rfl, hlength, hclosed⟩ := exists_of_blockComment h
    obtain rfl : inside.length = k := by simpa using hlength
    obtain ⟨front, rfl, hfront⟩ := first_of_closingFrom hclosed
    exact ⟨front, rfl, hfront⟩

/-! ## Line comments -/

theorem lineLength_cons {c : Char} (h : c ≠ '\n') (text : List Char) :
    lineLength (c :: text) = lineLength text + 1 := by
  simp [lineLength, h]

theorem lineLength_pos {text : List Char} (h : opensLine text = true) : 0 < lineLength text := by
  obtain ⟨inside, rfl⟩ := eq_of_opensLine h
  rw [lineLength_cons (by decide)]
  exact Nat.succ_pos _

theorem take_lineLength (text : List Char) :
    text.take (lineLength text) = text.takeWhile (· != '\n') :=
  (List.prefix_iff_eq_take.mp (List.takeWhile_prefix _)).symm

theorem length_take_lineLength (text : List Char) :
    (text.take (lineLength text)).length = lineLength text := by
  rw [take_lineLength]
  rfl

theorem drop_lineLength (text : List Char) :
    text.drop (lineLength text) = [] ∨ ∃ rest, text.drop (lineLength text) = '\n' :: rest := by
  induction text with
  | nil => exact .inl rfl
  | cons c text ih =>
    by_cases hc : c = '\n'
    · subst hc
      exact .inr ⟨text, rfl⟩
    · rwa [lineLength_cons hc, List.drop_succ_cons]

/-- A line comment ends where the text ends or a line feed follows. -/
theorem lineLength_append {a b : List Char} (ha : '\n' ∉ a)
    (hb : b = [] ∨ ∃ rest, b = '\n' :: rest) : lineLength (a ++ b) = a.length := by
  induction a with
  | nil =>
    rcases hb with rfl | ⟨rest, rfl⟩
    · rfl
    · rfl
  | cons c a ih =>
    obtain ⟨hc, ha⟩ := not_or.mp (mt List.mem_cons.mpr ha)
    rw [List.cons_append, lineLength_cons (Ne.symm hc), ih ha, List.length_cons]

/-- A line comment is one without the text behind it. -/
theorem opensLine_take {text : List Char} (h : opensLine text = true) :
    opensLine (text.take (lineLength text)) = true ∧ '\n' ∉ text.take (lineLength text) := by
  constructor
  · obtain ⟨inside, rfl⟩ := eq_of_opensLine h
    rw [lineLength_cons (by decide), lineLength_cons (by decide)]
    rfl
  · rw [take_lineLength]
    intro hmem
    simpa using List.mem_takeWhile_imp hmem

/-! ## Both kinds -/

/-- Only the next character decides whether a slash opens a comment. -/
theorem opens_of_slash {c : Char} {text : List Char}
    (h : opensBlock ('/' :: c :: text) = false ∧ opensLine ('/' :: c :: text) = false)
    (other : List Char) :
    opensBlock ('/' :: c :: other) = false ∧ opensLine ('/' :: c :: other) = false := by
  constructor
  · cases hb : opensBlock ('/' :: c :: other) with
    | false => rfl
    | true =>
      obtain ⟨inside, heq⟩ := eq_of_opensBlock hb
      cases heq
      cases h.1
  · cases hl : opensLine ('/' :: c :: other) with
    | false => rfl
    | true =>
      obtain ⟨inside, heq⟩ := eq_of_opensLine hl
      cases heq
      cases h.2

/-- A comment goes to where it is closed, to the end of its line or, if it is a block comment
that is never closed, to the end of the text. -/
theorem commentLength_cases {text : List Char} (h : 0 < commentLength text) :
    blockComment? text = some (commentLength text) ∨
      opensLine text = true ∧ commentLength text = lineLength text ∨
      opensBlock text = true ∧ blockComment? text = none ∧ commentLength text = text.length := by
  unfold commentLength at h ⊢
  cases hb : opensBlock text with
  | true =>
    rw [if_pos rfl]
    cases hn : blockComment? text with
    | none => exact .inr (.inr ⟨rfl, rfl, rfl⟩)
    | some n => exact .inl rfl
  | false =>
    rw [hb, if_neg Bool.false_ne_true] at h
    rw [if_neg Bool.false_ne_true]
    cases hl : opensLine text with
    | true => exact .inr (.inl ⟨rfl, if_pos rfl⟩)
    | false =>
      rw [hl, if_neg Bool.false_ne_true] at h
      cases h

/-- Where a text begins no comment, none is opened. -/
theorem opens_of_commentLength {text : List Char} (h : text ≠ []) (hz : commentLength text = 0) :
    opensBlock text = false ∧ opensLine text = false := by
  unfold commentLength at hz
  cases hb : opensBlock text with
  | true =>
    rw [if_pos hb] at hz
    cases hn : blockComment? text with
    | none =>
      rw [hn, Option.getD_none] at hz
      exact absurd (List.length_eq_zero_iff.mp hz) h
    | some n =>
      rw [hn, Option.getD_some] at hz
      have := blockComment_pos hn
      omega
  | false =>
    rw [hb, if_neg Bool.false_ne_true] at hz
    cases hl : opensLine text with
    | true =>
      rw [if_pos hl] at hz
      have := lineLength_pos hl
      omega
    | false => exact ⟨rfl, rfl⟩

end EngineHeader.Text
