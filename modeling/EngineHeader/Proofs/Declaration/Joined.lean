import EngineHeader.Proofs.Declaration.Completeness
import EngineHeader.Proofs.Declaration.Moved
import EngineHeader.Proofs.Declaration.Soundness

/-!
# Declarations behind declarations

Tokens that are read to their end may be followed by other tokens.  These are read as they are
alone, and what is read of them goes behind (`ofWords_append`).

The parser does not look behind the semicolon of a declaration, and so a declaration is read alike
whatever stands there (`Yields.frame`).  Only the comments behind the semicolon are told apart,
since comments in front of other tokens belong to the word before.  The comments in front of the
other tokens become those behind the last semicolon.  There they are read as comments between
declarations, which is what they are without the words before.
-/

namespace EngineHeader

namespace Token

/-- Tokens behind other tokens make the same words, but the comments in front of them belong to
the last word, if there is one. -/
theorem Words.ofTokens_append (ts us : List Token) :
    (ofTokens ts).words = [] ∧
        ofTokens (ts ++ us) =
          ⟨(ofTokens ts).leading ++ (ofTokens us).leading, (ofTokens us).words⟩ ∨
      ∃ init w, (ofTokens ts).words = init ++ [w] ∧
        ofTokens (ts ++ us) =
          ⟨(ofTokens ts).leading,
            init ++ ⟨w.token, w.comments ++ (ofTokens us).leading⟩ :: (ofTokens us).words⟩ := by
  induction ts with
  | nil => exact .inl ⟨rfl, rfl⟩
  | cons t ts ih =>
    rw [List.cons_append, ofTokens_cons, ofTokens_cons]
    rcases ih with ⟨hnone, heq⟩ | ⟨init, w, hwords, heq⟩
    · rw [heq, hnone]
      split
      · exact .inl ⟨rfl, rfl⟩
      · exact .inr ⟨[], _, rfl, rfl⟩
    · rw [heq, hwords]
      split
      · exact .inr ⟨init, w, rfl, rfl⟩
      · exact .inr ⟨_ :: init, w, rfl, rfl⟩

end Token

namespace Declaration.Parser

open Token (Word Words)

variable {d : Dialect} {ws rest : List Word} {content : Declaration} {semicolon : Word}
  {taken ds : List Declaration}

/-- A declaration is read alike whatever stands behind its semicolon. -/
theorem Yields.frame (h : Yields (declaration d ws) (content, semicolon) rest) :
    ∃ front, ws = front ++ semicolon :: rest ∧ semicolon.kind = .semicolon ∧
      ∀ (semicolon' : Word) (rest' : List Word), semicolon'.kind = .semicolon →
        Yields (declaration d (front ++ semicolon' :: rest')) (content, semicolon') rest' := by
  obtain ⟨word, behind, rfl, hword, hread, hsemi⟩ := yields_declaration_iff.mp h
  obtain ⟨front, bare, rfl, _, hdeclared⟩ := declared_sound hread
  obtain ⟨content', hcomplete, _⟩ := declared_complete hdeclared
  obtain ⟨rfl, _⟩ := hread.unique (hcomplete semicolon rest hsemi)
  refine ⟨word :: front, rfl, hsemi, fun semicolon' rest' hk => ?_⟩
  exact yields_declaration_iff.mpr ⟨word, _, rfl, hword, hcomplete semicolon' rest' hk, hk⟩

/-- Words that are read to the end are read in front of other words, and so are more comments behind
the last of them.  The induction is on the words, one declaration at a time. -/
theorem declarationsFrom_append {init : List Word} {w : Word}
    (h : declarationsFrom d taken (init ++ [w]) = .ok ds) (cs : List Token) (vs : List Word) :
    declarationsFrom d taken (init ++ ⟨w.token, w.comments ++ cs⟩ :: vs) =
      declarationsFrom d ((comments cs).reverse ++ ds.reverse) vs := by
  induction hlen : (init ++ [w]).length using Nat.strongRecOn generalizing init taken with
  | ind n ih =>
  obtain ⟨v, us, hcons⟩ := List.exists_cons_of_ne_nil (List.concat_ne_nil w init)
  rw [hcons] at h
  obtain ⟨content, semicolon, behind, hread, hmore⟩ := declarationsFrom_cons_iff.mp h
  rw [← hcons] at hread
  obtain ⟨front, hwords, hsemi, hframe⟩ := hread.frame
  rcases List.eq_nil_or_concat' behind with rfl | ⟨init', w', rfl⟩
  · obtain ⟨rfl, hw⟩ := List.append_inj' hwords rfl
    obtain rfl := List.singleton_inj.mp hw
    rw [declarationsFrom_nil] at hmore
    cases hmore
    rw [(hframe ⟨w.token, w.comments ++ cs⟩ vs hsemi).declarationsFrom_eq, comments_append,
      List.reverse_append, List.reverse_reverse, List.append_assoc]
  · rw [← List.cons_append, ← List.append_assoc] at hwords
    obtain ⟨rfl, hw⟩ := List.append_inj' hwords rfl
    obtain rfl := List.singleton_inj.mp hw
    rw [List.append_assoc, List.cons_append, (hframe semicolon _ hsemi).declarationsFrom_eq]
    exact ih _ (hlen ▸ hread.shorter) hmore rfl

/-- Tokens that are read to the end may be followed by others, which are read behind them. -/
theorem ofWords_append {ts : List Token} (h : ofWords d (.ofTokens ts) = .ok ds)
    (us : List Token) :
    ofWords d (.ofTokens (ts ++ us)) =
      declarationsFrom d ((comments (Words.ofTokens us).leading).reverse ++ ds.reverse)
        (Words.ofTokens us).words := by
  rw [ofWords] at h
  rcases Words.ofTokens_append ts us with ⟨hnone, heq⟩ | ⟨init, w, hwords, heq⟩
  · rw [hnone, declarationsFrom_nil, List.reverse_reverse] at h
    cases h
    rw [heq, ofWords, comments_append, List.reverse_append]
  · rw [hwords] at h
    rw [heq, ofWords]
    exact declarationsFrom_append h _ _

end Declaration.Parser

end EngineHeader
