import EngineHeader.Proofs.Declaration.InStep
import EngineHeader.Proofs.Position
import EngineHeader.Proofs.Token.Reads

/-!
# Reading declarations that stand elsewhere

A text may stand behind other text, and then all its positions are others.  The declarations that
are read of it are the same (`ofWords_moved`).  The parser looks at a position in one place only,
where it asks whether a comment begins on the line of a semicolon.  How many lines are between
the two does not depend on where the text stands (`Moved.line_iff`).

If only comments stand in front of the text, then these are the first of its declarations.
-/

namespace EngineHeader

namespace Token

variable {p q : Position} {t t' u u' : Token}

/-- Two tokens begin on one line wherever the text stands. -/
theorem Moved.line_iff (ht : Moved p q t t') (hu : Moved p q u u') :
    t.position.line = u.position.line ↔ t'.position.line = u'.position.line := by
  obtain ⟨a, hta, hta'⟩ := ht.place
  obtain ⟨b, hub, hub'⟩ := hu.place
  simp only [hta, hta', hub, hub', Position.line_advance, Nat.add_left_cancel_iff]

/-- The tokens of a word stand elsewhere, and so do those of its comments. -/
structure MovedWord (p q : Position) (w w' : Word) : Prop where
  token : Moved p q w.token w'.token
  comments : List.Forall₂ (Moved p q) w.comments w'.comments

/-- The words of tokens that stand elsewhere stand elsewhere. -/
theorem ofTokens_moved {ts us : List Token} (h : List.Forall₂ (Moved p q) ts us) :
    List.Forall₂ (Moved p q) (Words.ofTokens ts).leading (Words.ofTokens us).leading ∧
      List.Forall₂ (MovedWord p q) (Words.ofTokens ts).words (Words.ofTokens us).words := by
  induction h with
  | nil => exact ⟨.nil, .nil⟩
  | @cons t u ts us htu _ ih =>
    obtain ⟨hleading, hwords⟩ := ih
    rw [Words.ofTokens_cons, Words.ofTokens_cons, ← htu.kind]
    split
    · exact ⟨.cons htu hleading, hwords⟩
    · exact ⟨.nil, .cons ⟨htu, hleading⟩ hwords⟩

end Token

namespace Declaration.Parser

open Token (Word Words Moved MovedWord)

variable {p q : Position} {d : Dialect}

theorem fieldComment?_moved {close close' semicolon semicolon' : Word}
    (hclose : MovedWord p q close close') (hsemi : MovedWord p q semicolon semicolon') :
    fieldComment? close semicolon = fieldComment? close' semicolon' := by
  have hbehind := hclose.comments
  have hlast := hsemi.comments
  rw [fieldComment?, fieldComment?]
  generalize close.comments = cs at hbehind
  generalize close'.comments = cs' at hbehind
  cases hbehind with
  | cons hc _ => exact congrArg some hc.text
  | nil =>
    generalize semicolon.comments = cs at hlast
    generalize semicolon'.comments = cs' at hlast
    cases hlast with
    | nil => rfl
    | @cons c c' _ _ hc _ =>
      dsimp only
      rw [hc.text, if_congr (hc.line_iff hsemi.token) rfl rfl]

/-- Words that stand elsewhere correspond, and fields that are the same. -/
def moved (p q : Position) : Pairing where
  word := MovedWord p q
  field := Eq
  kind h := h.token.kind
  text h := h.token.text
  plain _ _ := rfl
  function signature _ _ _ _ hclose hsemi :=
    congrArg (Field.function signature) (fieldComment?_moved hclose hsemi)

theorem eq_of_moved {e e' : Declaration} (h : (moved p q).declared e e') : e = e' := by
  cases h with
  | enumeration e => rfl
  | typeAlias a => rfl
  | function s => rfl
  | @struct s s' h =>
    obtain ⟨hname, hfields⟩ := h
    rw [show s = s' from congr (congrArg Struct.mk hname) (List.forall₂_eq_eq_eq ▸ hfields)]

theorem comments_moved {ts us : List Token} (h : List.Forall₂ (Moved p q) ts us) :
    comments ts = comments us := by
  induction h with
  | nil => rfl
  | cons htu _ ih =>
    rw [comments, List.map_cons, htu.text]
    exact congrArg _ ih

theorem comments_append (ts us : List Token) :
    comments (ts ++ us) = comments ts ++ comments us := List.map_append

/-- What is read behind some declarations is what is read elsewhere, and the declarations. -/
theorem declarationsFrom_moved {ts us : List Token} (h : List.Forall₂ (Moved p q) ts us)
    (front : List Declaration) :
    Agree (moved p q) (fun ds ds' => ds = front ++ ds')
      (declarationsFrom d ((comments (Words.ofTokens ts).leading).reverse ++ front.reverse)
        (Words.ofTokens ts).words)
      (ofWords d (.ofTokens us)) := by
  obtain ⟨hleading, hwords⟩ := Token.ofTokens_moved h
  refine declarationsFrom_inStep ?_ ?_ hwords
  · rintro _ ds' e e' s s' rfl he hs
    rw [eq_of_moved he, comments_moved hs.comments, List.append_assoc]
  · rw [List.reverse_append, List.reverse_reverse, List.reverse_reverse, List.reverse_reverse,
      comments_moved hleading]

/-- What is read behind some comments is what is read elsewhere, and the comments. -/
theorem ofWords_moved {ts us lead : List Token} (h : List.Forall₂ (Moved p q) ts us)
    (hlead : ∀ t ∈ lead, t.kind = .comment) :
    Agree (moved p q) (fun ds ds' => ds = comments lead ++ ds')
      (ofWords d (.ofTokens (lead ++ ts))) (ofWords d (.ofTokens us)) := by
  have hall : Words.ofTokens (lead ++ ts) =
      ⟨lead ++ (Words.ofTokens ts).leading, (Words.ofTokens ts).words⟩ := by
    induction lead with
    | nil => rfl
    | cons t lead ih =>
      obtain ⟨ht, hlead⟩ := List.forall_mem_cons.mp hlead
      rw [List.cons_append, Words.ofTokens_cons, ih hlead, if_pos ht]
      rfl
  rw [hall, ofWords, comments_append, List.reverse_append]
  exact declarationsFrom_moved h (comments lead)

end Declaration.Parser

end EngineHeader
