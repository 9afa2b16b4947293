import EngineHeader.Proofs.Declaration.Completeness
import EngineHeader.Proofs.Declaration.Soundness
import Mathlib

/-!
# The headers of the grammar

A text is read as a header exactly if its tokens derive one, and what is read is
that header, comments aside (`ofText_iff_derives`).  The text has to be made of
tokens, since otherwise there is nothing that the grammar could speak of.

The grammar is not ambiguous.  Reading is a function, and it finds whatever the
tokens derive, so they cannot derive two trees (`Derives.unique`).
-/

namespace EngineHeader

namespace Token

/-- The words of tokens are the tokens that are not comments. -/
theorem Words.map_token_ofTokens (tokens : List Token) :
    (Words.ofTokens tokens).words.map Word.token = significant tokens := by
  induction tokens with
  | nil => rfl
  | cons t tokens ih =>
    rw [Words.ofTokens_cons]
    by_cases hk : t.kind = .comment
    · rw [if_pos hk, ih]
      simp [significant, hk]
    · rw [if_neg hk, List.map_cons, ih]
      simp [significant, hk]

/-- Where no token is a comment, each is a word without comments. -/
theorem Words.ofTokens_eq_map {ts : List Token}
    (h : ∀ t ∈ ts, t.kind ≠ .comment) : Words.ofTokens ts = ⟨[], ts.map (⟨·, []⟩)⟩ := by
  induction ts with
  | nil => rfl
  | cons t ts ih =>
    obtain ⟨ht, hts⟩ := List.forall_mem_cons.mp h
    rw [Words.ofTokens_cons, ih hts, if_neg ht, List.map_cons]

end Token

namespace Declaration.Grammar

open Token (Word)

/-- Tokens derive at most one tree. -/
theorem Derives.unique {d : Dialect} {ts : List Token} {t u : Header} (ht : Derives d ts t)
    (hu : Derives d ts u) : t = u := by
  have hwords : (ts.map fun t => (⟨t, []⟩ : Word)).map Word.token = ts := by
    rw [List.map_map]
    exact List.map_id ts
  rw [← hwords] at ht hu
  obtain ⟨ds, hds, rfl⟩ := Parser.ofWords_complete ⟨[], _⟩ ht
  obtain ⟨es, hes, rfl⟩ := Parser.ofWords_complete ⟨[], _⟩ hu
  rw [hds] at hes
  cases hes
  rfl

end Declaration.Grammar

namespace Header

open Declaration Declaration.Grammar
open Token (scanText significant)

/-- The text of a header is read as its tokens are, if it is made of tokens. -/
theorem ofText_of_scanned {d : Dialect} {text : String} (hs : (scanText text).error? = none) :
    ofText d text =
      match Parser.ofWords d (.ofTokens (scanText text).items) with
      | .ok ds => .ok ⟨ds⟩
      | .error stuck => .error (stuck.error (Position.start.advance text.toList)) := by
  have h : (scanText text).toExcept = .ok (scanText text).items := by
    rw [Scan.toExcept, hs]
  rw [ofText, h]
  rfl

/-- A text whose tokens end in an error is that error. -/
theorem ofText_of_error {d : Dialect} {text : String} {e : Error}
    (h : (scanText text).error? = some e) : ofText d text = .error e := by
  rw [ofText, Scan.toExcept, h]
  rfl

/-- A text is read as a header if it is made of tokens and their words are read so. -/
theorem ofText_eq_ok_iff {d : Dialect} {text : String} {h : Header} :
    ofText d text = .ok h ↔ (scanText text).error? = none ∧
      Parser.ofWords d (.ofTokens (scanText text).items) = .ok h.declarations := by
  cases hs : (scanText text).error? with
  | some e =>
    rw [ofText_of_error hs]
    constructor
    · intro heq
      cases heq
    · rintro ⟨heq, -⟩
      cases heq
  | none =>
    rw [ofText_of_scanned hs]
    obtain ⟨ds⟩ := h
    cases Parser.ofWords d (.ofTokens (scanText text).items) with
    | ok es => simp
    | error stuck => simp

/-- A text made of tokens is read as a header exactly if the tokens that are not
comments derive it, comments aside.  They derive at most one. -/
theorem ofText_iff_derives (d : Dialect) (text : String) (hs : (scanText text).error? = none) :
    (∀ tree, (∃ h, ofText d text = .ok h ∧ h.withoutComments = tree) ↔
      Derives d (significant (scanText text).items) tree) ∧
    ∀ ts t u, Derives d ts t → Derives d ts u → t = u := by
  refine ⟨fun tree => ?_, fun ts t u => Derives.unique⟩
  rw [ofText_of_scanned hs, ← Token.Words.map_token_ofTokens]
  constructor
  · rintro ⟨h, heq, rfl⟩
    split at heq
    · next ds hread =>
      cases heq
      exact Parser.ofWords_sound hread
    · cases heq
  · intro hderives
    obtain ⟨ds, hread, hbare⟩ := Parser.ofWords_complete _ hderives
    exact ⟨⟨ds⟩, by rw [hread], hbare⟩

/-- A callback without a name, a pointer and two comments. -/
theorem ofText_iff_derives_callback :
    (scanText "typedef void (*F)(int (*)(), T * /* in */ x); // last").error? = none ∧
      Derives .extension
        (significant (scanText "typedef void (*F)(int (*)(), T * /* in */ x); // last").items)
        ⟨[.function ⟨⟨false, "void", 0⟩, "F",
          [.callback ⟨false, "int", 0⟩ none [], .plain ⟨false, "T", 1⟩ (some "x")]⟩]⟩ := by
  have hs : (scanText "typedef void (*F)(int (*)(), T * /* in */ x); // last").error? = none := by
    cbv
  refine ⟨hs, ((ofText_iff_derives .extension _ hs).1 _).mp ⟨⟨[.function ⟨⟨false, "void", 0⟩, "F",
    [.callback ⟨false, "int", 0⟩ none [], .plain ⟨false, "T", 1⟩ (some "x")]⟩,
    .comment "// last"]⟩, ?_, rfl⟩⟩
  cbv

end Header

end EngineHeader
