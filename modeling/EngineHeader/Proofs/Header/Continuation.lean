import EngineHeader.Proofs.Header.Layout
import EngineHeader.Proofs.Position

/-!
# What stands in front of an error can be continued

An error of the grammar is at the first wrong token.  The text in front of it is the beginning of
some header: another text can be put behind it so that the whole is read
(`Header.exists_continuation`).

The text is cut in front of the token, and what is left is read as the tokens in front of it.  The
parser was not stuck there, so some tokens complete them.  These are written behind a line feed,
each with a space behind it.  The line feed ends a line comment, if the text ends with one.
-/

namespace EngineHeader

variable {d : Dialect}

namespace Token

/-! ## Writing tokens -/

/-- The texts of tokens, each with a space behind it. -/
def spacedText (ts : List Token) : List Char := ts.flatMap fun t => t.text.toList ++ [' ']

/-- Tokens that are written with spaces are read again, at other places. -/
theorem reads_spacedText {ts : List Token} (h : ∀ t ∈ ts, Spaced t) (p : Position) :
    ∃ us, Reads p (spacedText ts) us none ∧ us.map content = ts.map content ∧
      significant us = us := by
  induction ts generalizing p with
  | nil => exact ⟨[], .nil, rfl, rfl⟩
  | cons t ts ih =>
    obtain ⟨ht, hts⟩ := List.forall_mem_cons.mp h
    obtain ⟨us, hreads, hcontent, hsignificant⟩ := ih hts ((p.advance t.text.toList).next ' ')
    have htext : spacedText (t :: ts) = t.text.toList ++ ' ' :: spacedText ts := by
      simp [spacedText]
    refine ⟨⟨t.kind, String.ofList t.text.toList, p⟩ :: us, ?_, ?_, ?_⟩
    · rw [htext]
      exact .token (ht.isLexeme _) (.layout rfl hreads)
    · rw [List.map_cons, List.map_cons, hcontent, String.ofList_toList]
      rfl
    · rw [significant, List.filter_cons_of_pos (by simpa using ht.kind_ne)]
      exact congrArg _ hsignificant

/-- Tokens that are not comments have the comments in front of them behind the tokens before. -/
theorem significant_eq_append {all front behind : List Token} {t : Token}
    (h : significant all = front ++ t :: behind) :
    ∃ ts us, all = ts ++ t :: us ∧ significant ts = front := by
  obtain ⟨ts, us, rfl, hts, hus⟩ := List.filter_eq_append_iff.mp h
  obtain ⟨between, vs, rfl, hbetween, _, _⟩ := List.filter_eq_cons_iff.mp hus
  refine ⟨ts ++ between, vs, (List.append_assoc _ _ _).symm, ?_⟩
  have hnone : significant between = [] := List.filter_eq_nil_iff.mpr hbetween
  rw [significant_append, hnone, List.append_nil]
  exact hts

end Token

/-! ## Cutting and continuing -/

namespace Header

open Declaration Declaration.Parser Declaration.Grammar
open Token (Word Words Reads content scanText significant spacedText reads_spacedText)

/-- Where the words of a text get stuck it can be cut, and the words in front are read alone. -/
theorem exists_cut {text : String} {front : List Word} {s : Stuck}
    (hs : (scanText text).error? = none)
    (hwords : (Words.ofTokens (scanText text).items).words = front ++ s.rest) :
    ∃ a b ts, text.toList = a ++ b ∧
      (s.found (Position.start.advance text.toList)).position = Position.start.advance a ∧
      Reads .start a ts none ∧ significant ts = front.map Word.token := by
  have hreads := Token.reads_scanText text
  have hsignificant := Words.map_token_ofTokens (scanText text).items
  rw [hs] at hreads
  rw [hwords] at hsignificant
  obtain ⟨rest, expected⟩ := s
  cases rest with
  | nil =>
    rw [List.append_nil] at hsignificant
    exact ⟨text.toList, [], _, (List.append_nil _).symm, rfl, hreads, hsignificant.symm⟩
  | cons w rest =>
    rw [List.map_append, List.map_cons] at hsignificant
    obtain ⟨ts, us, hitems, hts⟩ := Token.significant_eq_append hsignificant.symm
    rw [hitems] at hreads
    obtain ⟨a, b, htext, ha, hposition⟩ := hreads.cut
    exact ⟨a, b, ts, htext, hposition, ha, hts⟩

/-- A text whose tokens can be completed can be continued.  The tokens that complete the words have
no place in a text.  So they are read alone, and what is read of the text follows. -/
theorem exists_continued {a : List Char} {ts : List Token} (ha : Reads .start a ts none)
    (h : Completable (fun ts => ∃ ds, Many (DeclarationOf d) ts ds) (significant ts)) :
    ∃ w h, ofText d (String.ofList a ++ w) = .ok h := by
  obtain ⟨cs, hcs, ds, hds⟩ := h
  obtain ⟨us, hreads, hcontent, hus⟩ := reads_spacedText hcs ((Position.start.advance a).next '\n')
  have hscan : scanText (String.ofList (a ++ '\n' :: spacedText cs)) = ⟨ts ++ us, none⟩ := by
    apply Reads.scanText_eq
    rw [String.toList_ofList]
    exact ha.append (.layout rfl hreads)
  have hcs' : significant cs = cs := Token.significant_eq_self.mpr fun c hc => (hcs c hc).kind_ne
  have halone : (Words.ofTokens (significant ts ++ cs)).words.map Word.token =
      significant ts ++ cs := by
    rw [Words.map_token_ofTokens, Token.significant_append, Token.significant_significant, hcs']
  have htext : (Words.ofTokens (ts ++ us)).words.map Word.token = significant ts ++ us := by
    rw [Words.map_token_ofTokens, Token.significant_append, hus]
  have hderives :
      Derives d ((Words.ofTokens (significant ts ++ cs)).words.map Word.token) ⟨ds⟩ := by
    rw [halone]
    exact hds
  obtain ⟨es, hes, _⟩ := ofWords_complete _ hderives
  have hcontents : ((Words.ofTokens (significant ts ++ cs)).words.map Word.token).map content =
      ((Words.ofTokens (ts ++ us)).words.map Word.token).map content := by
    rw [halone, htext, List.map_append, List.map_append, hcontent]
  have hagree := ofWords_layout (d := d) hcontents
  rw [hes] at hagree
  generalize hread : ofWords d (.ofTokens (ts ++ us)) = r at hagree
  cases hagree with
  | @read _ es' _ =>
    refine ⟨String.ofList ('\n' :: spacedText cs), ⟨es'⟩, ?_⟩
    rw [← String.ofList_append, ofText_eq_ok_iff, hscan]
    exact ⟨rfl, hread⟩

/-- An error of the grammar is at the first wrong token: the text in front of it can be continued
to a header. -/
theorem exists_continuation (d : Dialect) (source : String) {found : Token}
    {expected : Expected} (h : ofText d source = .error (.grammar found expected)) :
    ∃ front behind, source = front ++ behind ∧
      front.utf8ByteSize = found.position.offset ∧ ∃ w h, ofText d (front ++ w) = .ok h := by
  obtain ⟨hs, s, hstuck, rfl, rfl⟩ := ofText_eq_grammar h
  obtain ⟨front, hwords, hcompletable⟩ := ofWords_stuck hstuck
  obtain ⟨a, b, ts, htext, hposition, ha, hts⟩ := exists_cut hs hwords
  rw [← hts] at hcompletable
  refine ⟨String.ofList a, String.ofList b, ?_, ?_, exists_continued ha hcompletable⟩
  · rw [← String.ofList_append, ← htext, String.ofList_toList]
  · rw [hposition, Position.offset_advance]
    exact (Nat.zero_add _).symm

/-- A number that has no 64 bits, behind a letter of two bytes. -/
theorem exists_continuation_number :
    ofText .native "typedef enum \x7b A, // é\n B = 0x8000000000000000 \x7d E;" =
        .error (.grammar ⟨.integer, "0x8000000000000000", ⟨29, 2, 6⟩⟩ .representable) ∧
      ∃ front behind,
        "typedef enum \x7b A, // é\n B = 0x8000000000000000 \x7d E;" = front ++ behind ∧
        front.utf8ByteSize = 29 ∧ ∃ w h, ofText .native (front ++ w) = .ok h := by
  have h : ofText .native "typedef enum \x7b A, // é\n B = 0x8000000000000000 \x7d E;" =
      .error (.grammar ⟨.integer, "0x8000000000000000", ⟨29, 2, 6⟩⟩ .representable) := by cbv
  exact ⟨h, exists_continuation .native _ h⟩

end Header

end EngineHeader
