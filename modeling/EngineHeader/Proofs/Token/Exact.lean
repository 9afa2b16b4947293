import EngineHeader.Proofs.Text.Exact
import EngineHeader.Proofs.Token.Lexeme

/-!
# Where tokens stand

Each token stands where it says, and each error of the lexer is where it says
(`Lexer.Reached.token_isAt`, `scanText_isAt`).  The invariant is that the cursor is in the source
(`Cursor.In`).  Whatever a lexer is asked to do keeps it, so it holds of every lexer that is
reached, also of one that was asked to go on behind an error or at the end.
-/

namespace EngineHeader

variable {source : String}

/-- What was not recognized stands at the position of the error, and this is exact. -/
def Error.Unrecognized (source : String) (e : Error) : Prop :=
  ∃ p found, e = .unrecognized p found ∧ StandsAt source found p

namespace Token

/-- The position of the token is exact.  The spelling of the token stands there, and for the token
that ends the text it is the end of the source. -/
structure IsAt (source : String) (t : Token) : Prop where
  text : StandsAt source t.text t.position
  atEnd : t.kind = .endOfFile → IsEnd source t.position

variable {c c' : Cursor} {t : Token} {e : Error}

theorem isAt_of_read (hc : c.In source) (h : read c = .ok (t, c')) :
    t.IsAt source ∧ c'.In source := by
  obtain ⟨n, hscan, htext, hposition, rfl⟩ := exists_of_read h
  refine ⟨⟨?_, fun hk => ?_⟩, hc.move n⟩
  · rw [htext, hposition]
    exact hc.standsAt_peek n
  · rw [hk] at hscan
    rw [hposition]
    exact hc.isEnd (eq_nil_of_scan hscan)

theorem unrecognized_of_read (hc : c.In source) (h : read c = .error e) :
    e.Unrecognized source := by
  rw [read] at h
  split at h
  · cases h
  · next n _ =>
    cases h
    exact ⟨_, _, rfl, hc.standsAt_peek n⟩

/-- The tokens that are found, if the cursor is in the source.  None of them ends the text. -/
theorem scanFrom_isAt {taken : List Token}
    (htaken : ∀ t ∈ taken, t.IsAt source ∧ t.kind ≠ .endOfFile) (hc : c.In source) :
    (∀ t ∈ (scanFrom taken c).items, t.IsAt source ∧ t.kind ≠ .endOfFile) ∧
      ∀ e, (scanFrom taken c).error? = some e → e.Unrecognized source := by
  fun_induction scanFrom taken c with
  | case1 taken c e hread =>
    refine ⟨fun t ht => htaken t (List.mem_reverse.mp ht), ?_⟩
    rintro _ ⟨⟩
    exact unrecognized_of_read (hc.move _) hread
  | case2 taken c t c' hread hk =>
    exact ⟨fun t ht => htaken t (List.mem_reverse.mp ht), fun _ he => nomatch he⟩
  | case3 taken c t c' hread hk ih =>
    obtain ⟨ht, hc'⟩ := isAt_of_read (hc.move _) hread
    exact ih (List.forall_mem_cons.mpr ⟨⟨ht, hk⟩, htaken⟩) hc'

theorem scanText_isAt (source : String) :
    (∀ t ∈ (scanText source).items, t.IsAt source ∧ t.kind ≠ .endOfFile) ∧
      ∀ e, (scanText source).error? = some e → e.Unrecognized source :=
  scanFrom_isAt (List.forall_mem_nil _) (Cursor.in_ofText source)

end Token

namespace Lexer

/-- A lexer that began at the beginning of the source. -/
inductive Reached (source : String) : Lexer → Prop where
  | start : Reached source (.ofText source)
  | skipLayout {l : Lexer} : Reached source l → Reached source l.skipLayout
  | token {l : Lexer} : Reached source l → Reached source l.token.2
  | next {l : Lexer} : Reached source l → Reached source l.next.2

variable {l : Lexer}

theorem in_skipLayout (h : l.cursor.In source) : l.skipLayout.cursor.In source := h.move _

theorem in_token (h : l.cursor.In source) : l.token.2.cursor.In source := by
  rw [token]
  split
  · next hread => exact (Token.isAt_of_read h hread).2
  · exact h

theorem isAt_of_token {t : Token} (h : l.cursor.In source) (ht : l.token.1 = .ok t) :
    t.IsAt source := by
  rw [token] at ht
  split at ht
  · next hread =>
    cases ht
    exact (Token.isAt_of_read h hread).1
  · cases ht

theorem unrecognized_of_token {e : Error} (h : l.cursor.In source) (he : l.token.1 = .error e) :
    e.Unrecognized source := by
  rw [token] at he
  split at he
  · cases he
  · next hread =>
    cases he
    exact Token.unrecognized_of_read h hread

/-- What comes next is the token behind the white space, unless there is nothing. -/
theorem next_fst {found : Except Error Token} (h : l.next.1 = some found) :
    l.skipLayout.token.1 = found := by
  rw [next] at h
  split at h
  · cases h
  split at h
  · next htoken =>
    split at h
    · cases h
    · cases h
      rw [htoken]
  · next htoken =>
    cases h
    rw [htoken]

theorem in_next (h : l.cursor.In source) : l.next.2.cursor.In source := by
  have hbehind := in_token (in_skipLayout h)
  rw [next]
  split
  · exact h
  split
  · next htoken =>
    rw [htoken] at hbehind
    split
    · exact hbehind
    · exact hbehind
  · next htoken =>
    rw [htoken] at hbehind
    exact hbehind

/-- A lexer that is reached is in the source. -/
theorem Reached.cursor_in (h : Reached source l) : l.cursor.In source := by
  induction h with
  | start => exact Cursor.in_ofText source
  | skipLayout _ ih => exact in_skipLayout ih
  | token _ ih => exact in_token ih
  | next _ ih => exact in_next ih

/-- Each token that a lexer takes stands where it says, and so does what it does not recognize. -/
theorem Reached.token_isAt (h : Reached source l) :
    (∀ t, l.token.1 = .ok t → t.IsAt source) ∧
      ∀ e, l.token.1 = .error e → e.Unrecognized source :=
  ⟨fun _ ht => isAt_of_token h.cursor_in ht, fun _ he => unrecognized_of_token h.cursor_in he⟩

theorem Reached.next_isAt (h : Reached source l) :
    (∀ t, l.next.1 = some (.ok t) → t.IsAt source) ∧
      ∀ e, l.next.1 = some (.error e) → e.Unrecognized source :=
  ⟨fun t ht => h.skipLayout.token_isAt.1 t (next_fst ht),
    fun e he => h.skipLayout.token_isAt.2 e (next_fst he)⟩

end Lexer

end EngineHeader
