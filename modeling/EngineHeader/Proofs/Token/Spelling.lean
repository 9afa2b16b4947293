import EngineHeader.Proofs.Directive.Event
import EngineHeader.Proofs.Text.Comment
import EngineHeader.Proofs.Token.Lexeme
import Mathlib

/-!
# Spelling tokens

How tokens are written so that they are read again.  A text *spells* tokens if it is made
of their spellings, in order, with spaces wherever one likes, and if no word goes on into
what is written behind it.  Only words and punctuation are spelled here.

A text that spells tokens is read as these tokens (`Spells.scanText_eq`).  In the other
direction each identifier that is read from a text is a name: a word that is not one of the
keywords (`isName_of_mem_scanText`).

Longer texts are put together from parts.  `Writes text P behind` says that `text` is a part
that spells tokens with the property `P`, if it stands in front of `behind`.
-/

namespace EngineHeader.Token

open Text
open Directive (IsIdentifier)

/-! ## Names -/

/-- A word that is not a keyword. -/
structure IsName (name : String) : Prop where
  identifier : IsIdentifier name
  free : name ∉ keywords.map Prod.fst

theorem IsName.ofWord {name : String} (h : IsName name) : Kind.ofWord name = .identifier :=
  ofWord_eq_identifier_iff.mpr h.free

/-! ## Reading one token -/

/-- No word goes on at the head of the text. -/
def WordEnds (text : List Char) : Prop := ∀ c ∈ text.head?, isWordPart c = false

theorem wordEnds_cons {c : Char} (h : isWordPart c = false) (text : List Char) :
    WordEnds (c :: text) := by simpa [WordEnds] using h

/-- Each character of a word continues words. -/
theorem isWordPart_of_isIdentifier {word : String} (h : IsIdentifier word) :
    ∀ c ∈ word.toList, isWordPart c = true := by
  obtain ⟨c, cs, heq, hc, hcs⟩ := h
  rw [heq]
  exact List.forall_mem_cons.mpr ⟨isWordPart_of_isWordStart hc, hcs⟩

theorem scan_word {word : String} {behind : List Char} (hw : IsIdentifier word)
    (hb : WordEnds behind) :
    scan (word.toList ++ behind) = .ok (.ofWord word, word.toList.length) := by
  have hlength : wordLength (word.toList ++ behind) = word.toList.length := by
    rw [wordLength, takeWhile_append_of_stops (isWordPart_of_isIdentifier hw) hb]
  have htake : (word.toList ++ behind).take word.toList.length = word.toList := List.take_left
  obtain ⟨c, cs, heq, hc, _⟩ := hw
  obtain ⟨hblock, hline⟩ := opens_of_ne (ne_slash rfl hc) (cs ++ behind)
  rw [scan, hlength, htake, String.ofList_toList]
  rw [heq, List.cons_append, List.head?_cons]
  dsimp only
  rw [hline, hblock, if_neg Bool.false_ne_true, if_neg Bool.false_ne_true, if_pos hc]

theorem scan_mark {c : Char} {kind : Kind} (h : punctuation? c = some kind)
    (behind : List Char) : scan (c :: behind) = .ok (kind, 1) := by
  unfold punctuation? at h
  split at h
  case h_12 => cases h
  all_goals
    cases h
    rfl

/-! ## Spelling -/

/-- The text spells the tokens, and begins at the position. -/
inductive Spells : Position → List Char → List Token → Prop where
  | nil {p : Position} : Spells p [] []
  | space {p : Position} {text : List Char} {ts : List Token} :
    Spells (p.next ' ') text ts → Spells p (' ' :: text) ts
  | word {p : Position} {word : String} {text : List Char} {ts : List Token} :
    IsIdentifier word → WordEnds text → Spells (p.advance word.toList) text ts →
    Spells p (word.toList ++ text) (⟨.ofWord word, word, p⟩ :: ts)
  | mark {p : Position} {c : Char} {kind : Kind} {text : List Char} {ts : List Token} :
    punctuation? c = some kind → Spells (p.next c) text ts →
    Spells p (c :: text) (⟨kind, String.ofList [c], p⟩ :: ts)

/-- A space in front of a token does not matter. -/
theorem scanFrom_space (taken : List Token) (text : List Char) (p : Position) :
    scanFrom taken ⟨' ' :: text, p⟩ = scanFrom taken ⟨text, p.next ' '⟩ := by
  have hskip : skipLayout ⟨' ' :: text, p⟩ = skipLayout ⟨text, p.next ' '⟩ := rfl
  rw [scanFrom, scanFrom, hskip]

/-- Where no white space is in front, a token is what the lexeme at the head of the text
is. -/
theorem scanFrom_token {taken : List Token} {c : Char} {lexeme behind : List Char} {p : Position}
    {kind : Kind} (hc : isLayout c = false)
    (h : scan (c :: lexeme ++ behind) = .ok (kind, (c :: lexeme).length))
    (hk : kind ≠ .endOfFile) :
    scanFrom taken ⟨c :: lexeme ++ behind, p⟩ =
      scanFrom (⟨kind, String.ofList (c :: lexeme), p⟩ :: taken)
        ⟨behind, p.advance (c :: lexeme)⟩ := by
  have hskip : skipLayout ⟨c :: lexeme ++ behind, p⟩ = ⟨c :: lexeme ++ behind, p⟩ := by
    rw [skipLayout, List.cons_append, List.takeWhile_cons, hc]
    rfl
  have hread : read ⟨c :: lexeme ++ behind, p⟩ =
      .ok (⟨kind, String.ofList (c :: lexeme), p⟩, ⟨behind, p.advance (c :: lexeme)⟩) := by
    rw [read, h]
    dsimp only [Cursor.peek, Cursor.move]
    rw [List.take_left, List.drop_left]
  rw [scanFrom, hskip]
  split
  · next e heq =>
    rw [hread] at heq
    cases heq
  · next t c' heq =>
    rw [hread] at heq
    cases heq
    rw [dif_neg hk]

theorem eq_of_isLayout {c : Char} (h : isLayout c = true) :
    c = ' ' ∨ c = '\t' ∨ c = '\r' ∨ c = '\x0b' ∨ c = '\x0c' ∨ c = '\n' := by
  simpa [isLayout, isBlank, or_assoc] using h

theorem isLayout_of_isWordStart {c : Char} (h : isWordStart c = true) : isLayout c = false := by
  rw [← Bool.not_eq_true]
  intro hlayout
  rcases eq_of_isLayout hlayout with rfl | rfl | rfl | rfl | rfl | rfl
  all_goals cases h

theorem isLayout_of_punctuation? {c : Char} {kind : Kind} (h : punctuation? c = some kind) :
    isLayout c = false := by
  rw [← Bool.not_eq_true]
  intro hlayout
  rcases eq_of_isLayout hlayout with rfl | rfl | rfl | rfl | rfl | rfl
  all_goals cases h

/-- A text that spells tokens is read as these tokens. -/
theorem Spells.scanFrom_eq {p : Position} {text : List Char} {ts : List Token}
    (h : Spells p text ts) (taken : List Token) :
    scanFrom taken ⟨text, p⟩ = ⟨taken.reverse ++ ts, none⟩ := by
  induction h generalizing taken with
  | @nil p =>
    have hread : read (skipLayout ⟨[], p⟩) = .ok (⟨.endOfFile, "", p⟩, ⟨[], p⟩) := rfl
    rw [scanFrom, List.append_nil]
    split
    · next e heq =>
      rw [hread] at heq
      cases heq
    · next t c' heq =>
      rw [hread] at heq
      cases heq
      rw [dif_pos rfl]
  | space _ ih => rw [scanFrom_space, ih]
  | @word p word text ts hw hb _ ih =>
    have hscan := scan_word hw hb
    have hk : Kind.ofWord word ≠ .endOfFile := ofWord_ne word (by decide) (by decide)
    have hword : String.ofList word.toList = word := String.ofList_toList
    obtain ⟨c, cs, heq, hc, _⟩ := hw
    rw [heq] at hscan hword ih ⊢
    rw [scanFrom_token (isLayout_of_isWordStart hc) hscan hk, hword, ih,
      List.reverse_cons, List.append_assoc, List.singleton_append]
  | @mark p c kind text ts hc _ ih =>
    have hscan : scan ([c] ++ text) = .ok (kind, [c].length) := scan_mark hc text
    have hbehind : p.advance [c] = p.next c := rfl
    rw [← List.singleton_append,
      scanFrom_token (isLayout_of_punctuation? hc) hscan (punctuation?_ne hc).1, hbehind, ih,
      List.reverse_cons, List.append_assoc, List.singleton_append]

theorem Spells.scanText_eq {text : String} {ts : List Token}
    (h : Spells .start text.toList ts) : scanText text = ⟨ts, none⟩ := h.scanFrom_eq []

/-- No comment is spelled. -/
theorem Spells.kind_ne_comment {p : Position} {text : List Char} {ts : List Token}
    (h : Spells p text ts) : ∀ t ∈ ts, t.kind ≠ .comment := by
  induction h with
  | nil => exact List.forall_mem_nil _
  | space _ ih => exact ih
  | @word p word text ts _ _ _ ih =>
    exact List.forall_mem_cons.mpr ⟨ofWord_ne word (by decide) (by decide), ih⟩
  | mark hc _ ih => exact List.forall_mem_cons.mpr ⟨(punctuation?_ne hc).2.1, ih⟩

/-! ## Parts of a text -/

/-- In front of `behind`, the text is a part that spells tokens with a property. -/
def Writes (text : List Char) (P : List Token → Prop) (behind : List Char) : Prop :=
  ∀ p ts, Spells (p.advance text) behind ts → ∃ us, P us ∧ Spells p (text ++ behind) (us ++ ts)

variable {a b behind : List Char} {P Q : List Token → Prop}

/-- One part behind the other is a part. -/
theorem Writes.append (ha : Writes a P (b ++ behind)) (hb : Writes b Q behind) :
    Writes (a ++ b) (fun ts => ∃ us vs, ts = us ++ vs ∧ P us ∧ Q vs) behind := by
  intro p ts hbehind
  rw [Position.advance_append] at hbehind
  obtain ⟨vs, hvs, hb⟩ := hb _ _ hbehind
  obtain ⟨us, hus, ha⟩ := ha _ _ hb
  refine ⟨us ++ vs, ⟨us, vs, rfl, hus, hvs⟩, ?_⟩
  rwa [List.append_assoc, List.append_assoc]

theorem Writes.mono (h : Writes a P behind) (hPQ : ∀ {us}, P us → Q us) : Writes a Q behind := by
  intro p ts hbehind
  obtain ⟨us, hus, h⟩ := h p ts hbehind
  exact ⟨us, hPQ hus, h⟩

theorem writes_nil : Writes [] (· = []) behind := fun _ _ h => ⟨[], rfl, h⟩

/-- A space in front of a part spells nothing. -/
theorem Writes.space (h : Writes a P behind) : Writes (' ' :: a) P behind := by
  intro p ts hbehind
  obtain ⟨us, hus, h⟩ := h _ ts hbehind
  exact ⟨us, hus, .space h⟩

theorem Writes.mark {c : Char} {kind : Kind} (hc : punctuation? c = some kind)
    (h : Writes a P behind) :
    Writes (c :: a) (fun us => ∃ t vs, us = t :: vs ∧ t.kind = kind ∧ P vs) behind := by
  intro p ts hbehind
  obtain ⟨us, hus, h⟩ := h _ ts hbehind
  exact ⟨_, ⟨_, us, rfl, rfl, hus⟩, .mark hc h⟩

theorem writes_word {word : String} (hw : IsIdentifier word) (hb : WordEnds behind) :
    Writes word.toList (fun us => ∃ t, us = [t] ∧ t.kind = .ofWord word ∧ t.text = word) behind :=
  fun _ _ hbehind => ⟨_, ⟨_, rfl, rfl, rfl⟩, .word hw hb hbehind⟩

theorem writes_keyword {word : String} {kind : Kind} (hw : IsIdentifier word)
    (hk : Kind.ofWord word = kind) (hb : WordEnds behind) :
    Writes word.toList (fun us => ∃ t, us = [t] ∧ t.kind = kind) behind := by
  refine (writes_word hw hb).mono ?_
  rintro _ ⟨t, rfl, ht, _⟩
  exact ⟨t, rfl, ht.trans hk⟩

theorem writes_name {name : String} (hn : IsName name) (hb : WordEnds behind) :
    Writes name.toList (fun us => ∃ t, us = [t] ∧ t.kind = .identifier ∧ t.text = name)
      behind := by
  rw [← hn.ofWord]
  exact writes_word hn.identifier hb

/-! ## The names of a text -/

/-- What holds of each token that can be read holds of all tokens of a text. -/
theorem scanFrom_forall {Q : Token → Prop}
    (hread : ∀ {c c' t}, read c = .ok (t, c') → Q t) (taken : List Token) (c : Cursor)
    (htaken : ∀ t ∈ taken, Q t) : ∀ t ∈ (scanFrom taken c).items, Q t := by
  fun_induction scanFrom taken c with
  | case1 taken c e heq => exact fun t ht => htaken t (List.mem_reverse.mp ht)
  | case2 taken c t c' heq hk => exact fun t ht => htaken t (List.mem_reverse.mp ht)
  | case3 taken c t c' heq hk ih => exact ih (List.forall_mem_cons.mpr ⟨hread heq, htaken⟩)

/-- Only a word is an identifier. -/
theorem isName_of_scan {text : List Char} {n : Nat} (h : scan text = .ok (.identifier, n)) :
    IsName (String.ofList (text.take n)) := by
  generalize hk : Kind.identifier = kind at h
  cases lexes_of_scan h with
  | endOfFile => cases hk
  | lineComment _ => cases hk
  | blockComment _ => cases hk
  | @word c text hc =>
    have htake : (c :: text).take (wordLength (c :: text)) =
        c :: text.takeWhile isWordPart := by
      rw [wordLength, ← List.prefix_iff_eq_take.mp (List.takeWhile_prefix _), List.takeWhile_cons,
        isWordPart_of_isWordStart hc, if_pos rfl]
    rw [htake] at hk ⊢
    refine ⟨⟨c, text.takeWhile isWordPart, String.toList_ofList, hc, ?_⟩, ?_⟩
    · exact fun x hx => List.mem_takeWhile_imp hx
    · exact ofWord_eq_identifier_iff.mp hk.symm
  | ellipsis => cases hk
  | integer _ => cases hk
  | mark hmark => exact absurd hk.symm (punctuation?_ne hmark).2.2

/-- An identifier of a text is a name. -/
theorem isName_of_mem_scanText {text : String} {t : Token} (ht : t ∈ (scanText text).items)
    (hk : t.kind = .identifier) : IsName t.text := by
  refine scanFrom_forall (Q := fun t => t.kind = .identifier → IsName t.text) ?_ [] _
    (List.forall_mem_nil _) t ht hk
  intro c c' t hread hk
  obtain ⟨n, hscan, htext, _⟩ := exists_of_read hread
  rw [htext]
  exact isName_of_scan (hk ▸ hscan)

end EngineHeader.Token
