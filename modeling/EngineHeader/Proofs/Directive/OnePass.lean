import EngineHeader.Directive.Segment
import EngineHeader.Proofs.Text.Comment

/-!
# One pass over a header

How a header is cut, told by a single pass from left to right.  The pass looks at one
character at a time, or at the two that open or close a comment, and it keeps three
things.

* A flag that says whether a number sign would begin a directive line.  It is set at
  the beginning, behind a directive line and at each line feed outside of a block
  comment.  White space and comments keep it, anything else clears it.
* What it is inside of: a directive line, source text, or neither.
* The characters of the piece that it has not finished.

Outside of comments (`code`) a number sign begins a directive line if the flag is set.
The line goes on to the first line feed that is not escaped, and takes it.  A line
feed is escaped by a backslash right in front of it, or by a backslash and a carriage
return.  A line comment (`line`) ends at the line feed in any case.  In a block comment
(`block`) only its end counts.  Anything else but white space begins source text, and
that goes on to the next directive line.

The lemmas say what the pass does with a whole comment.  One that is closed is skipped
or becomes part of the piece (`code_of_closed`, `code_of_line`), and one that is not closed
is the last thing of the text (`code_of_unclosed`).
-/

namespace EngineHeader.Directive.OnePass

open Text

/-! ## Pieces -/

/-- A piece of a header. -/
inductive Piece where
  /-- Text between the segments. -/
  | skipped (text : List Char)
  /-- A directive line, and whether a line feed behind it belongs to the piece. -/
  | directive (line : List Char) (ended : Bool)
  /-- Source text. -/
  | source (text : List Char)
deriving DecidableEq, Repr

/-- The text of a piece. -/
def Piece.text : Piece → List Char
  | .skipped text => text
  | .directive line ended => if ended then line ++ ['\n'] else line
  | .source text => text

/-- The text of some pieces in order. -/
def textOf (ps : List Piece) : List Char := ps.flatMap Piece.text

theorem textOf_append (ps qs : List Piece) : textOf (ps ++ qs) = textOf ps ++ textOf qs :=
  List.flatMap_append

/-- The segments among some pieces that begin at `p`. -/
def segmentsFrom (p : Position) : List Piece → List Segment
  | [] => []
  | .skipped text :: ps => segmentsFrom (p.advance text) ps
  | .directive line ended :: ps =>
    ⟨.line (.ofText line.tail), p⟩ :: segmentsFrom (p.advance (Piece.directive line ended).text) ps
  | .source text :: ps =>
    ⟨.source (String.ofList text), p⟩ :: segmentsFrom (p.advance text) ps

theorem segmentsFrom_append (p : Position) (ps qs : List Piece) :
    segmentsFrom p (ps ++ qs) =
      segmentsFrom p ps ++ segmentsFrom (p.advance (textOf ps)) qs := by
  induction ps generalizing p with
  | nil => rfl
  | cons piece ps ih =>
    have htext : textOf (piece :: ps) = piece.text ++ textOf ps := rfl
    rw [htext, Position.advance_append]
    cases piece with
    | skipped text => exact ih _
    | directive line ended => exact congrArg _ (ih _)
    | source text => exact congrArg _ (ih _)

/-- Text that may stand between segments: one white space character, a closed block
comment, or a line comment up to the end of its line. -/
def IsSkippable (text : List Char) : Prop :=
  (∃ c, text = [c] ∧ isLayout c = true) ∨ blockComment? text = some text.length ∨
    opensLine text = true ∧ '\n' ∉ text

/-- All of these pieces are skipped. -/
def Skips (ps : List Piece) : Prop := ∀ p ∈ ps, ∃ text, p = .skipped text ∧ IsSkippable text

theorem skips_nil : Skips [] := by simp [Skips]

theorem Skips.append {ps qs : List Piece} (hp : Skips ps) (hq : Skips qs) : Skips (ps ++ qs) := by
  intro p h
  rcases List.mem_append.mp h with h | h
  · exact hp p h
  · exact hq p h

theorem Skips.isSkippable {ps : List Piece} (h : Skips ps) {text : List Char}
    (ht : .skipped text ∈ ps) : IsSkippable text := by
  obtain ⟨t, heq, ht⟩ := h _ ht
  cases heq
  exact ht

/-- What is skipped holds no segment. -/
theorem Skips.segmentsFrom {ps : List Piece} (h : Skips ps) (p : Position) :
    segmentsFrom p ps = [] := by
  induction ps generalizing p with
  | nil => rfl
  | cons piece ps ih =>
    obtain ⟨text, rfl, -⟩ := h piece List.mem_cons_self
    exact ih (fun q hq => h q (List.mem_cons_of_mem _ hq)) _

/-- What the pass makes of a text. -/
structure Cut where
  /-- The pieces, in order. -/
  pieces : List Piece
  /-- A block comment behind them that is not closed.  It is empty if there is none. -/
  unclosed : List Char
deriving DecidableEq, Repr

/-- The same with some pieces in front. -/
def Cut.behind (ps : List Piece) (c : Cut) : Cut := ⟨ps ++ c.pieces, c.unclosed⟩

theorem Cut.behind_behind (c : Cut) (ps qs : List Piece) :
    (c.behind qs).behind ps = c.behind (ps ++ qs) := by
  simp only [Cut.behind, List.append_assoc]

/-- The scan that a cut stands for, if its text begins at `p`. -/
def Cut.scan (p : Position) (c : Cut) : Scan Segment where
  items := segmentsFrom p c.pieces
  error? :=
    if c.unclosed = [] then none
    else some (.unrecognized (p.advance (textOf c.pieces)) "/*")

theorem Cut.scan_behind (c : Cut) (ps : List Piece) (p : Position) :
    (c.behind ps).scan p =
      ⟨segmentsFrom p ps ++ (c.scan (p.advance (textOf ps))).items,
        (c.scan (p.advance (textOf ps))).error?⟩ := by
  simp only [Cut.scan, Cut.behind, segmentsFrom_append, textOf_append, Position.advance_append]

/-- A cut of a text loses nothing of it and adds nothing.  It skips only what may stand
between segments.  What it leaves over is a block comment that is not closed. -/
structure Cut.Covers (c : Cut) (text : List Char) : Prop where
  text : textOf c.pieces ++ c.unclosed = text
  skipped : ∀ t, .skipped t ∈ c.pieces → IsSkippable t
  unclosed : c.unclosed = [] ∨ opensBlock c.unclosed = true ∧ blockComment? c.unclosed = none

/-! ## States -/

/-- What the pass is inside of. -/
inductive Inside where
  /-- Neither a directive line nor source text. -/
  | neither
  /-- A directive line. -/
  | directive
  /-- Source text. -/
  | source
deriving DecidableEq, Repr

/-- What the pass keeps. -/
structure State where
  /-- A number sign would begin a directive line. -/
  fresh : Bool
  /-- What the pass is inside of. -/
  inside : Inside
  /-- The characters of the piece that is not finished, latest first. -/
  taken : List Char
deriving DecidableEq, Repr

namespace State

/-- Before a segment, at the beginning of a line. -/
def start : State := ⟨true, .neither, []⟩

/-- One more character of the piece. -/
def push (s : State) (c : Char) : State := { s with taken := c :: s.taken }

/-- More characters of the piece. -/
def pushAll (s : State) (text : List Char) : State := { s with taken := text.reverse ++ s.taken }

/-- A line feed that comes next on a directive line is escaped. -/
def escapes (s : State) : Bool :=
  match s.inside, s.taken with
  | .directive, '\\' :: _ => true
  | .directive, '\r' :: '\\' :: _ => true
  | _, _ => false

/-- The end of the text. -/
def finish (s : State) : Cut :=
  match s.inside with
  | .neither => ⟨[], s.taken.reverse⟩
  | .directive => ⟨[.directive s.taken.reverse false], []⟩
  | .source => ⟨[.source s.taken.reverse], []⟩

/-- The end of a comment.  It is a piece of its own, unless it is part of one. -/
def endComment (s : State) : List Piece × State :=
  match s.inside with
  | .neither => ([.skipped s.taken.reverse], { s with taken := [] })
  | .directive => ([], s)
  | .source => ([], s)

/-- A line feed that ends the line. -/
def endLine (s : State) : List Piece × State :=
  match s.inside with
  | .neither => ([.skipped ['\n']], { s with fresh := true })
  | .directive => ([.directive s.taken.reverse true], start)
  | .source => ([], { s.push '\n' with fresh := true })

/-- Any other character outside of comments. -/
def next (s : State) (c : Char) : List Piece × State :=
  match s.inside with
  | .neither =>
    if isBlank c then ([.skipped [c]], s)
    else if s.fresh && c = '#' then ([], ⟨true, .directive, ['#']⟩)
    else ([], ⟨false, .source, [c]⟩)
  | .directive => ([], s.push c)
  | .source =>
    if isBlank c then ([], s.push c)
    else if s.fresh && c = '#' then ([.source s.taken.reverse], ⟨true, .directive, ['#']⟩)
    else ([], { s.push c with fresh := false })

theorem pushAll_nil (s : State) : s.pushAll [] = s := rfl

theorem pushAll_cons (s : State) (c : Char) (text : List Char) :
    s.pushAll (c :: text) = (s.push c).pushAll text := by
  simp [pushAll, push]

theorem pushAll_append (s : State) (a b : List Char) :
    s.pushAll (a ++ b) = (s.pushAll a).pushAll b := by
  simp [pushAll]

/-- In a directive line and in source text a comment is part of the piece. -/
theorem endComment_of_ne {s : State} (h : s.inside ≠ .neither) : s.endComment = ([], s) := by
  obtain ⟨fresh, inside, taken⟩ := s
  cases inside with
  | neither => exact absurd rfl h
  | directive => rfl
  | source => rfl

end State

/-! ## The pass -/

/-- Go on behind the pieces that are finished. -/
def andThen (m : List Piece × State) (go : State → Cut) : Cut := (go m.2).behind m.1

theorem andThen_nil (s : State) (go : State → Cut) : andThen ([], s) go = go s := rfl

mutual

/-- The pass outside of comments. -/
def code (s : State) : List Char → Cut
  | [] => s.finish
  | '/' :: '*' :: text => block ((s.push '/').push '*') text
  | '/' :: '/' :: text => line ((s.push '/').push '/') text
  | '\n' :: text =>
    if s.escapes then code (s.push '\n') text else andThen s.endLine fun s => code s text
  | c :: text => andThen (s.next c) fun s => code s text

/-- The pass in a line comment. -/
def line (s : State) : List Char → Cut
  | [] => andThen s.endComment State.finish
  | '\n' :: text => andThen s.endComment fun s => andThen s.endLine fun s => code s text
  | c :: text => line (s.push c) text

/-- The pass in a block comment. -/
def block (s : State) : List Char → Cut
  | [] => s.finish
  | '*' :: '/' :: text => andThen ((s.push '*').push '/').endComment fun s => code s text
  | c :: text => block (s.push c) text

end

/-- What the pass makes of a whole text. -/
def cut (text : List Char) : Cut := code .start text

/-- The end of a line: the end of the text, or a line feed that is not escaped. -/
def atLineEnd (s : State) : List Char → Cut
  | [] => s.finish
  | _ :: text => andThen s.endLine fun s => code s text

/-! ## Comments -/

theorem block_of_closed {n k : Nat} {text : List Char} (h : closingFrom n text = some (n + k))
    (s : State) :
    block s text = andThen (s.pushAll (text.take k)).endComment fun s => code s (text.drop k) := by
  fun_induction closingFrom n text generalizing k s with
  | case1 n => cases h
  | case2 n text =>
    obtain rfl : k = 2 := by simpa using h.symm
    rw [block]
    rfl
  | case3 n c text hne ih =>
    have := closingFrom_ge h
    obtain ⟨k, rfl⟩ : ∃ j, k = j + 1 := ⟨k - 1, by omega⟩
    have hassoc : n + (k + 1) = n + 1 + k := by omega
    rw [hassoc] at h
    rw [block.eq_3 s c text hne, List.take_succ_cons, State.pushAll_cons, List.drop_succ_cons]
    exact ih h (s.push c)

theorem block_of_unclosed {n : Nat} {text : List Char} (h : closingFrom n text = none)
    (s : State) : block s text = (s.pushAll text).finish := by
  fun_induction closingFrom n text generalizing s with
  | case1 n => rw [block, State.pushAll_nil]
  | case2 n text => cases h
  | case3 n c text hne ih => rw [block.eq_3 s c text hne, ih h, State.pushAll_cons]

theorem line_eq (s : State) (text : List Char) :
    line s text = andThen (s.pushAll (text.take (lineLength text))).endComment fun s =>
      atLineEnd s (text.drop (lineLength text)) := by
  induction text generalizing s with
  | nil => rw [line]; rfl
  | cons c text ih =>
    by_cases hc : c = '\n'
    · subst hc
      rw [line]
      rfl
    · rw [line.eq_3 s c text hc, ih, lineLength_cons hc, List.take_succ_cons,
        State.pushAll_cons, List.drop_succ_cons]

/-- A block comment that is closed. -/
theorem code_of_closed {n : Nat} {text : List Char} (h : blockComment? text = some n) (s : State) :
    code s text = andThen (s.pushAll (text.take n)).endComment fun s => code s (text.drop n) := by
  obtain ⟨inside, k, rfl, rfl, hclosed⟩ := exists_of_blockComment h
  rw [code, block_of_closed hclosed]
  simp only [List.take_succ_cons, State.pushAll_cons, List.drop_succ_cons]

/-- A block comment that is not closed. -/
theorem code_of_unclosed {text : List Char} (ho : opensBlock text = true)
    (h : blockComment? text = none) (s : State) : code s text = (s.pushAll text).finish := by
  obtain ⟨inside, rfl⟩ := eq_of_opensBlock ho
  rw [blockComment?, Option.map_eq_none_iff] at h
  rw [code, block_of_unclosed h, State.pushAll_cons, State.pushAll_cons]

/-- A line comment. -/
theorem code_of_line {text : List Char} (h : opensLine text = true) (s : State) :
    code s text = andThen (s.pushAll (text.take (lineLength text))).endComment fun s =>
      atLineEnd s (text.drop (lineLength text)) := by
  obtain ⟨inside, rfl⟩ := eq_of_opensLine h
  rw [code, line_eq, lineLength_cons (by decide), lineLength_cons (by decide)]
  simp only [List.take_succ_cons, State.pushAll_cons, List.drop_succ_cons]

/-- Without an escape, the line feed behind a line comment is like any other. -/
theorem code_drop_lineLength {s : State} (hs : s.escapes = false) (text : List Char) :
    code s (text.drop (lineLength text)) = atLineEnd s (text.drop (lineLength text)) := by
  rcases drop_lineLength text with h | ⟨rest, h⟩
  · rw [h, code, atLineEnd]
  · rw [h, code, hs]
    rfl

/-- A character that neither opens a comment nor is a line feed. -/
theorem code_other {c : Char} {text : List Char}
    (h : opensBlock (c :: text) = false ∧ opensLine (c :: text) = false) (hc : c ≠ '\n')
    (s : State) : code s (c :: text) = andThen (s.next c) fun s => code s text := by
  refine code.eq_5 s c text ?_ ?_ hc
  · rintro rest rfl rfl
    cases h.1
  · rintro rest rfl rfl
    cases h.2

end EngineHeader.Directive.OnePass
