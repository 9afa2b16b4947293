import EngineHeader.Proofs.Text.Comment

/-!
# Comments that are left open

A text leaves a comment open if whoever reads it from left to right meets a block comment
that is never closed.  The reader takes one character at a time and knows in which *place*
it is: in the code, behind a slash, in a line comment, in a block comment, or in one and
behind a star.  `leavesOpen` is the question whether the end of the text is in a block
comment.

The scanners measure a whole comment at once.  For each of their steps one lemma says that
it makes no difference to the question: a character that opens nothing (`leavesOpen_cons`), a
closed block comment (`leavesOpen_drop_blockComment`) and a line comment
(`leavesOpen_drop_lineLength`).  Where a block comment has no length the answer is yes
(`leavesOpen_of_unclosed`).
-/

namespace EngineHeader.Text

/-! ## Reading one character at a time -/

/-- Where in a text the next character stands. -/
inductive Place where
  /-- Outside of comments. -/
  | code
  /-- Outside of comments, behind a slash that may begin one. -/
  | slash
  /-- In a line comment. -/
  | line
  /-- In a block comment. -/
  | block
  /-- In a block comment, behind a star that may end it. -/
  | star
deriving DecidableEq, Repr

/-- The place behind one more character. -/
def Place.next : Place → Char → Place
  | .code, c => if c = '/' then .slash else .code
  | .slash, c => if c = '/' then .line else if c = '*' then .block else .code
  | .line, c => if c = '\n' then .code else .line
  | .block, c => if c = '*' then .star else .block
  | .star, c => if c = '/' then .code else if c = '*' then .star else .block

/-- The place behind a text. -/
def Place.after (p : Place) (text : List Char) : Place := text.foldl next p

/-- The place is in a block comment. -/
def Place.isOpen : Place → Bool
  | .code => false
  | .slash => false
  | .line => false
  | .block => true
  | .star => true

/-- Reading from left to right meets a block comment that is never closed. -/
def leavesOpen (text : List Char) : Bool := (Place.code.after text).isOpen

namespace Place

@[simp] theorem after_nil (p : Place) : p.after [] = p := rfl

@[simp] theorem after_cons (p : Place) (c : Char) (text : List Char) :
    p.after (c :: text) = (p.next c).after text := rfl

theorem after_append (p : Place) (a b : List Char) : p.after (a ++ b) = (p.after a).after b :=
  List.foldl_append

/-- A line feed neither opens a block comment nor closes one. -/
theorem isOpen_next_feed (p : Place) : (p.next '\n').isOpen = p.isOpen := by cases p <;> rfl

/-- In a block comment, and a slash at the head of the text would not end it. -/
def InBlock (p : Place) (text : List Char) : Prop :=
  p = .block ∨ p = .star ∧ ∀ rest, text ≠ '/' :: rest

theorem InBlock.next {p : Place} {c : Char} {text : List Char} (h : p.InBlock (c :: text))
    (hne : ∀ rest, c = '*' → text ≠ '/' :: rest) : (p.next c).InBlock text := by
  by_cases hc : c = '*'
  · have hstar : p.next c = .star := by
      rcases h with rfl | ⟨rfl, _⟩
      · rw [Place.next, if_pos hc]
      · rw [hc]
        rfl
    exact .inr ⟨hstar, fun rest => hne rest hc⟩
  · have hblock : p.next c = .block := by
      rcases h with rfl | ⟨rfl, h⟩
      · rw [Place.next, if_neg hc]
      · have hslash : c ≠ '/' := fun heq => h text (by rw [heq])
        rw [Place.next, if_neg hslash, if_neg hc]
    exact .inl hblock

theorem InBlock.isOpen {p : Place} {text : List Char} (h : p.InBlock text) : p.isOpen = true := by
  rcases h with rfl | ⟨rfl, _⟩
  · rfl
  · rfl

/-- The first star and slash end a block comment. -/
theorem InBlock.after_closed {p : Place} {n k : Nat} {text : List Char} (hp : p.InBlock text)
    (h : closingFrom n text = some (n + k)) : p.after text = code.after (text.drop k) := by
  fun_induction closingFrom n text generalizing p k with
  | case1 n => cases h
  | case2 n text =>
    obtain rfl : k = 2 := by simpa using h.symm
    rcases hp with rfl | ⟨rfl, _⟩
    · rfl
    · rfl
  | case3 n c text hne ih =>
    have := closingFrom_ge h
    obtain ⟨k, rfl⟩ : ∃ j, k = j + 1 := ⟨k - 1, by omega⟩
    have hassoc : n + (k + 1) = n + 1 + k := by omega
    exact ih (hp.next hne) (hassoc ▸ h)

/-- Without a star and slash a block comment goes on to the end. -/
theorem InBlock.isOpen_after {p : Place} {n : Nat} {text : List Char} (hp : p.InBlock text)
    (h : closingFrom n text = none) : (p.after text).isOpen = true := by
  fun_induction closingFrom n text generalizing p with
  | case1 n => exact hp.isOpen
  | case2 n text => cases h
  | case3 n c text hne ih => exact ih (hp.next hne) h

theorem line_after {text : List Char} (h : '\n' ∉ text) : line.after text = .line := by
  induction text with
  | nil => rfl
  | cons c text ih =>
    obtain ⟨hc, htext⟩ := not_or.mp (mt List.mem_cons.mpr h)
    rw [after_cons, next, if_neg (Ne.symm hc), ih htext]

end Place

/-! ## The steps of a scanner -/

variable {c : Char} {text : List Char}

@[simp] theorem leavesOpen_nil : leavesOpen [] = false := rfl

/-- A character that opens no comment makes no difference. -/
theorem leavesOpen_cons (h : opensBlock (c :: text) = false ∧ opensLine (c :: text) = false) :
    leavesOpen (c :: text) = leavesOpen text := by
  rw [leavesOpen, Place.after_cons, Place.next]
  split
  · next hc =>
    subst hc
    cases text with
    | nil => rfl
    | cons x text =>
      have hline : x ≠ '/' := by
        rintro rfl
        cases h.2
      have hblock : x ≠ '*' := by
        rintro rfl
        cases h.1
      rw [leavesOpen, Place.after_cons, Place.after_cons, Place.next, Place.next, if_neg hline,
        if_neg hline, if_neg hblock]
  · rfl

theorem leavesOpen_cons_of_ne (h : c ≠ '/') : leavesOpen (c :: text) = leavesOpen text :=
  leavesOpen_cons (opens_of_ne h text)

/-- Characters among which is no slash make no difference. -/
theorem leavesOpen_drop_of_ne {n : Nat} (h : ∀ x ∈ text.take n, x ≠ '/') :
    leavesOpen (text.drop n) = leavesOpen text := by
  induction text generalizing n with
  | nil => rw [List.drop_nil]
  | cons c text ih =>
    cases n with
    | zero => rfl
    | succ n =>
      obtain ⟨hc, htext⟩ := List.forall_mem_cons.mp h
      rw [List.drop_succ_cons, ih htext, leavesOpen_cons_of_ne hc]

/-- A block comment that is closed makes no difference. -/
theorem leavesOpen_drop_blockComment {n : Nat} (h : blockComment? text = some n) :
    leavesOpen (text.drop n) = leavesOpen text := by
  obtain ⟨inside, k, rfl, rfl, hclosed⟩ := exists_of_blockComment h
  have hblock : Place.block.InBlock inside := .inl rfl
  have hafter : Place.code.after ('/' :: '*' :: inside) = Place.code.after (inside.drop k) :=
    hblock.after_closed hclosed
  rw [leavesOpen, leavesOpen, hafter, List.drop_succ_cons, List.drop_succ_cons]

theorem leavesOpen_of_unclosed (ho : opensBlock text = true) (h : blockComment? text = none) :
    leavesOpen text = true := by
  obtain ⟨inside, rfl⟩ := eq_of_opensBlock ho
  rw [blockComment?, Option.map_eq_none_iff] at h
  have hblock : Place.block.InBlock inside := .inl rfl
  exact hblock.isOpen_after h

/-- A line comment makes no difference. -/
theorem leavesOpen_drop_lineLength (h : opensLine text = true) :
    leavesOpen (text.drop (lineLength text)) = leavesOpen text := by
  obtain ⟨inside, rfl⟩ := eq_of_opensLine h
  have hline : Place.line.after (inside.take (lineLength inside)) = .line := by
    refine Place.line_after ?_
    rw [take_lineLength]
    intro hmem
    simpa using List.mem_takeWhile_imp hmem
  have hafter : Place.code.after ('/' :: '/' :: inside) =
      Place.line.after (inside.drop (lineLength inside)) := by
    have happend := Place.after_append .line (inside.take (lineLength inside))
      (inside.drop (lineLength inside))
    rw [List.take_append_drop, hline] at happend
    exact happend
  rw [lineLength_cons (by decide), lineLength_cons (by decide), List.drop_succ_cons,
    List.drop_succ_cons, leavesOpen, leavesOpen, hafter]
  rcases drop_lineLength inside with hend | ⟨rest, hend⟩
  · rw [hend]
    rfl
  · rw [hend]
    rfl

/-- A comment makes no difference, unless it is the one that is left open. -/
theorem leavesOpen_drop_commentLength (h : 0 < commentLength text) :
    leavesOpen (text.drop (commentLength text)) = leavesOpen text ∨
      leavesOpen text = true ∧ text.drop (commentLength text) = [] := by
  rcases commentLength_cases h with hclosed | ⟨hl, hlen⟩ | ⟨ho, hn, hlen⟩
  · exact .inl (leavesOpen_drop_blockComment hclosed)
  · rw [hlen]
    exact .inl (leavesOpen_drop_lineLength hl)
  · rw [hlen]
    exact .inr ⟨leavesOpen_of_unclosed ho hn, List.drop_length⟩

/-- A line feed at the end makes no difference. -/
theorem leavesOpen_append_feed (text : List Char) :
    leavesOpen (text ++ ['\n']) = leavesOpen text := by
  rw [leavesOpen, Place.after_append, Place.after_cons, Place.after_nil, Place.isOpen_next_feed,
    leavesOpen]

/-- The star that opens a comment does not close it. -/
example : leavesOpen ['/', '*', '/'] = true := by decide

/-- A comment does not begin in a comment. -/
example : leavesOpen ['/', '*', '/', '*', '*', '/', '/', '/', '*', '\n'] = false := by decide

end EngineHeader.Text
