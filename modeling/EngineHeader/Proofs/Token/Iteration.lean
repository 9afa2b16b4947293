import EngineHeader.Proofs.Token.Reads

/-!
# What a lexer gives

A lexer is asked for one item after the other until it has no more.  `Lexer.Gives l found` says
that `found` is all that it gives, in order.  A lexer that begins at a text gives the tokens of the
text, and then the error, if there is one (`Lexer.gives_scanText`).  It gives nothing else
(`Lexer.Gives.unique`), so this is also how every lexer ends.

Tokens *cover* a text if nothing but white space is left between them, and each of them says where
it stands (`Covers`).  What is read of a text covers it, up to the error (`Reads.covers`).
-/

namespace EngineHeader

open Text

/-! ## All items of a lexer -/

namespace Lexer

/-- These are the items that the lexer gives, and then it has no more. -/
inductive Gives : Lexer → List (Except Error Token) → Prop where
  | done {l : Lexer} : l.next.1 = none → Gives l []
  | more {l : Lexer} {item : Except Error Token} {items : List (Except Error Token)} :
    l.next.1 = some item → Gives l.next.2 items → Gives l (item :: items)

/-- A lexer gives one list of items. -/
theorem Gives.unique {l : Lexer} {items others : List (Except Error Token)} (h : l.Gives items)
    (ho : l.Gives others) : items = others := by
  induction h generalizing others with
  | done hnone =>
    cases ho with
    | done => rfl
    | more hsome _ =>
      rw [hnone] at hsome
      cases hsome
  | more hsome _ ih =>
    cases ho with
    | done hnone =>
      rw [hsome] at hnone
      cases hnone
    | more hsome' hmore =>
      rw [hsome] at hsome'
      cases hsome'
      rw [ih hmore]

/-- Lexers that answer alike give the same items. -/
theorem Gives.of_next_eq {l l' : Lexer} {items : List (Except Error Token)} (h : l'.Gives items)
    (heq : l.next = l'.next) : l.Gives items := by
  cases h with
  | done hnone =>
    rw [← heq] at hnone
    exact .done hnone
  | more hsome hmore =>
    rw [← heq] at hsome hmore
    exact .more hsome hmore

/-! ## One answer -/

/-- A lexer that has ended has no more, and stays as it is. -/
theorem next_of_ended {l : Lexer} (h : l.ended = true) : l.next = (none, l) := by
  rw [next, if_pos h]

/-- White space in front makes no difference to a lexer that has not ended. -/
theorem next_of_skipLayout {c c' : Cursor} (h : Token.skipLayout c = Token.skipLayout c') :
    next ⟨c, false⟩ = next ⟨c', false⟩ := by
  rw [next, next, if_neg Bool.false_ne_true, if_neg Bool.false_ne_true, skipLayout, skipLayout]
  dsimp only
  rw [h]

theorem next_of_token {c c' : Cursor} {t : Token}
    (h : Token.read (Token.skipLayout c) = .ok (t, c')) (hk : t.kind ≠ .endOfFile) :
    next ⟨c, false⟩ = (some (.ok t), ⟨c', false⟩) := by
  rw [next, if_neg Bool.false_ne_true, skipLayout, token]
  dsimp only
  rw [h]
  dsimp only
  rw [if_neg hk]

theorem next_of_end {c c' : Cursor} {t : Token}
    (h : Token.read (Token.skipLayout c) = .ok (t, c')) (hk : t.kind = .endOfFile) :
    next ⟨c, false⟩ = (none, ⟨c', true⟩) := by
  rw [next, if_neg Bool.false_ne_true, skipLayout, token]
  dsimp only
  rw [h]
  dsimp only
  rw [if_pos hk]

theorem next_of_error {c : Cursor} {e : Error} (h : Token.read (Token.skipLayout c) = .error e) :
    next ⟨c, false⟩ = (some (.error e), ⟨Token.skipLayout c, true⟩) := by
  rw [next, if_neg Bool.false_ne_true, skipLayout, token]
  dsimp only
  rw [h]

end Lexer

namespace Token

variable {p : Position} {text a b : List Char} {ts us : List Token} {e : Option Error}

/-! ## The lexer and the text -/

theorem IsLexeme.read_eq {kind : Kind} {lexeme behind : List Char}
    (h : IsLexeme kind lexeme behind) (p : Position) :
    read ⟨lexeme ++ behind, p⟩ =
      .ok (⟨kind, String.ofList lexeme, p⟩, ⟨behind, p.advance lexeme⟩) := by
  rw [read, h.scan_eq]
  dsimp only [Cursor.peek, Cursor.move]
  rw [List.take_left, List.drop_left]

/-- White space in front of a lexeme is all white space in front of it. -/
theorem IsLexeme.skipLayout_eq {kind : Kind} {lexeme behind : List Char}
    (h : IsLexeme kind lexeme behind) (p : Position) :
    skipLayout ⟨lexeme ++ behind, p⟩ = ⟨lexeme ++ behind, p⟩ := by
  apply skipLayout_of_stops
  obtain ⟨_, c, rest, rfl, hc⟩ := h.begins
  intro x hx
  cases hx
  exact hc

/-- What is read of a text is what a lexer gives that begins there. -/
theorem Reads.gives (h : Reads p text ts e) :
    Lexer.Gives ⟨⟨text, p⟩, false⟩ (ts.map .ok ++ (e.map .error).toList) := by
  induction h with
  | nil => exact .done rfl
  | @layout p c text ts e hc _ ih =>
    exact ih.of_next_eq (Lexer.next_of_skipLayout (skipLayout_cons hc text p))
  | @token p kind lexeme text ts e hlexeme _ ih =>
    have hread := hlexeme.read_eq p
    rw [← hlexeme.skipLayout_eq p] at hread
    have hnext := Lexer.next_of_token hread hlexeme.begins.1
    refine .more (by rw [hnext]) ?_
    rw [hnext]
    exact ih
  | @error p text n hstop hn =>
    have hread : read (skipLayout ⟨text, p⟩) =
        .error (.unrecognized p (String.ofList (text.take n))) := by
      rw [skipLayout_of_stops hstop, read, hn]
      rfl
    have hnext := Lexer.next_of_error hread
    refine .more (by rw [hnext]) (.done ?_)
    rw [hnext, Lexer.next_of_ended rfl]

end Token

/-- A lexer that begins at the beginning of a text gives the tokens of the text and then the error,
if there is one. -/
theorem Lexer.gives_scanText (text : String) :
    (Lexer.ofText text).Gives ((Token.scanText text).items.map .ok ++
      ((Token.scanText text).error?.map .error).toList) :=
  (Token.reads_scanText text).gives

namespace Token

variable {p : Position} {text a b : List Char} {ts us : List Token} {e : Option Error}

/-! ## Texts that are covered -/

/-- The text, which begins at the position, is made of the spellings of the tokens and of white
space around them, and each token says where it stands. -/
inductive Covers : Position → List Char → List Token → Prop where
  | nil {p : Position} : Covers p [] []
  | layout {p : Position} {c : Char} {text : List Char} {ts : List Token} :
    isLayout c = true → Covers (p.next c) text ts → Covers p (c :: text) ts
  | token {p : Position} {t : Token} {text : List Char} {ts : List Token} :
    t.position = p → Covers (p.advance t.text.toList) text ts →
    Covers p (t.text.toList ++ text) (t :: ts)

theorem Covers.append (ha : Covers p a ts) (hb : Covers (p.advance a) b us) :
    Covers p (a ++ b) (ts ++ us) := by
  induction ha with
  | nil => exact hb
  | layout hc _ ih => exact .layout hc (ih hb)
  | token hposition _ ih =>
    rw [List.append_assoc]
    rw [Position.advance_append] at hb
    exact .token hposition (ih hb)

theorem covers_layout (h : ∀ c ∈ text, isLayout c = true) : Covers p text [] := by
  induction text generalizing p with
  | nil => exact .nil
  | cons c text ih =>
    obtain ⟨hc, htext⟩ := List.forall_mem_cons.mp h
    exact .layout hc (ih htext)

theorem covers_token {t : Token} (h : t.position = p) : Covers p t.text.toList [t] := by
  have hcovers : Covers p (t.text.toList ++ []) [t] := .token h .nil
  rwa [List.append_nil] at hcovers

/-- What is read of a text covers it, up to the error. -/
theorem Reads.covers (h : Reads p text ts e) :
    ∃ front behind, text = front ++ behind ∧ Covers p front ts ∧ (e = none → behind = []) ∧
      ∀ fault ∈ e, ∃ found, fault = .unrecognized (p.advance front) found := by
  induction h with
  | nil => exact ⟨[], [], rfl, .nil, fun _ => rfl, fun _ h => nomatch h⟩
  | @layout p c text ts e hc _ ih =>
    obtain ⟨front, behind, rfl, hcovers, hnone, hsome⟩ := ih
    exact ⟨c :: front, behind, rfl, .layout hc hcovers, hnone, hsome⟩
  | @token p kind lexeme text ts e _ _ ih =>
    obtain ⟨front, behind, rfl, hcovers, hnone, hsome⟩ := ih
    have htoken : Covers p lexeme [⟨kind, String.ofList lexeme, p⟩] := by
      have hself := covers_token (t := ⟨kind, String.ofList lexeme, p⟩) rfl
      rwa [String.toList_ofList] at hself
    refine ⟨lexeme ++ front, behind, (List.append_assoc _ _ _).symm, htoken.append hcovers, hnone,
      ?_⟩
    rw [Position.advance_append]
    exact hsome
  | @error p text n _ _ =>
    refine ⟨[], text, rfl, .nil, ?_, ?_⟩
    · intro hnone
      cases hnone
    · intro fault hfault
      cases hfault
      exact ⟨_, rfl⟩

end Token

end EngineHeader
