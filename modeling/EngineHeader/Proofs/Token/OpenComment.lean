import EngineHeader.Proofs.Text.OpenComment
import EngineHeader.Proofs.Token.Lexeme

/-!
# Comments that the declaration lexer finds open

The declaration lexer does not come to the end of a text that leaves a comment open
(`error_of_leavesOpen`).  A token makes no difference to the comment that is left open: it
is a closed comment, or it has no slash (`leavesOpen_drop_scan`).  So the comment is met in
the end, and it is not a token.
-/

namespace EngineHeader.Token

open Text

variable {text : List Char} {n : Nat}

/-! ## Tokens and the comment that is left open -/

theorem leavesOpen_drop_scan {kind : Kind} (h : scan text = .ok (kind, n)) :
    leavesOpen (text.drop n) = leavesOpen text := by
  cases lexes_of_scan h with
  | endOfFile => rfl
  | lineComment hl => exact leavesOpen_drop_lineLength hl
  | blockComment hn => exact leavesOpen_drop_blockComment hn
  | word _ => exact leavesOpen_drop_of_ne fun c hc => ne_slash rfl (forall_take_takeWhile _ c hc)
  | ellipsis => exact leavesOpen_drop_of_ne (by simp)
  | integer hn => exact leavesOpen_drop_of_ne fun c hc => ne_slash rfl (isNumberPart_of_integer hn c hc)
  | @mark c text kind hmark =>
    have hslash : c ≠ '/' := by
      rintro rfl
      cases hmark
    exact (leavesOpen_cons_of_ne hslash).symm

theorem leavesOpen_skipLayout (c : Cursor) :
    leavesOpen (skipLayout c).rest = leavesOpen c.rest :=
  leavesOpen_drop_of_ne fun x hx => ne_slash rfl (forall_take_takeWhile c.rest x hx)

/-- A token makes no difference to the comment that is left open. -/
theorem leavesOpen_read {c c' : Cursor} {t : Token} (h : read c = .ok (t, c')) :
    leavesOpen c'.rest = leavesOpen c.rest := by
  obtain ⟨n, hscan, _, _, rfl⟩ := exists_of_read h
  exact leavesOpen_drop_scan hscan

theorem leavesOpen_of_endOfFile {c c' : Cursor} {t : Token} (h : read c = .ok (t, c'))
    (hk : t.kind = .endOfFile) : leavesOpen c.rest = false := by
  obtain ⟨n, hscan, _⟩ := exists_of_read h
  rw [hk] at hscan
  rw [eq_nil_of_scan hscan, leavesOpen_nil]

theorem scanFrom_of_leavesOpen (taken : List Token) (c : Cursor)
    (h : leavesOpen c.rest = true) : (scanFrom taken c).error? ≠ none := by
  fun_induction scanFrom taken c with
  | case1 taken c e hread => exact Option.some_ne_none e
  | case2 taken c t c' hread hk =>
    rw [← leavesOpen_skipLayout, leavesOpen_of_endOfFile hread hk] at h
    cases h
  | case3 taken c t c' hread hk ih =>
    refine ih ?_
    rw [leavesOpen_read hread, leavesOpen_skipLayout, h]

/-- A text that leaves a comment open is not made of tokens. -/
theorem error_of_leavesOpen {text : String} (h : leavesOpen text.toList = true) :
    (scanText text).error? ≠ none := scanFrom_of_leavesOpen [] _ h

end EngineHeader.Token
