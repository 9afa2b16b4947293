import EngineHeader.Proofs.Token.Exact
import EngineHeader.Proofs.Token.Iteration

/-!
# Lexers that are used in any order

A lexer may be told to skip white space, to take a token right where it is, or to give its next
item.  Besides, a copy of it may be kept, and later one may go on with a copy.  A *session* is a
lexer together with the copies that were kept, and it is asked by *calls*, in any order.

What can be relied on at each point of a session is `Session.Sound`, and it holds at all of them
(`Session.sound_run`).  Three facts carry it.

* The lexer and all copies are in the source (`Session.In`), so each token stands where it says.
* A call moves the cursor over white space and over the token that it answers (`Moves`), so calls in
  a row do.
* A lexer that has ended stays so, and so do the copies that are kept of it from then on
  (`Session.Ended`).
-/

namespace EngineHeader

open Text Token

/-! ## How far a cursor moves -/

/-- Moving from one cursor to the other is moving over the tokens and over white space around
them. -/
def Moves (c c' : Cursor) (ts : List Token) : Prop :=
  ∃ between, c.rest = between ++ c'.rest ∧ c'.position = c.position.advance between ∧
    Covers c.position between ts

section

variable {c c' c'' : Cursor} {t : Token} {ts us : List Token}

theorem moves_refl (c : Cursor) : Moves c c [] := ⟨[], rfl, rfl, .nil⟩

theorem Moves.trans (h : Moves c c' ts) (h' : Moves c' c'' us) : Moves c c'' (ts ++ us) := by
  obtain ⟨first, hrest, hposition, hcovers⟩ := h
  obtain ⟨second, hrest', hposition', hcovers'⟩ := h'
  refine ⟨first ++ second, ?_, ?_, ?_⟩
  · rw [hrest, hrest', List.append_assoc]
  · rw [hposition', hposition, Position.advance_append]
  · rw [hposition] at hcovers'
    exact hcovers.append hcovers'

theorem moves_skipLayout (c : Cursor) : Moves c (skipLayout c) [] := by
  obtain ⟨run, behind, heq, hlength, hrun, _⟩ := exists_run isLayout c.rest
  refine ⟨run, ?_, ?_, covers_layout hrun⟩
  · rw [skipLayout, hlength, Cursor.rest_move, heq, List.drop_left]
  · rw [skipLayout, hlength, Cursor.position_move, heq, List.take_left]

/-- A token that is read is all that lies between the cursors. -/
theorem between_of_read (h : read c = .ok (t, c')) :
    t.position = c.position ∧ c.rest = t.text.toList ++ c'.rest ∧
      c'.position = c.position.advance t.text.toList := by
  obtain ⟨n, _, htext, hposition, rfl⟩ := exists_of_read h
  have hlist : t.text.toList = c.rest.take n := by rw [htext, Cursor.peek, String.toList_ofList]
  refine ⟨hposition, ?_, ?_⟩
  · rw [hlist, Cursor.rest_move, List.take_append_drop]
  · rw [hlist, Cursor.position_move]

theorem moves_read (h : read c = .ok (t, c')) : Moves c c' [t] := by
  obtain ⟨hposition, hrest, hbehind⟩ := between_of_read h
  exact ⟨t.text.toList, hrest, hbehind, covers_token hposition⟩

/-- At the end of the text nothing is moved over. -/
theorem moves_end (h : read c = .ok (t, c')) (hk : t.kind = .endOfFile) : Moves c c' [] := by
  obtain ⟨n, hscan, _⟩ := exists_of_read h
  obtain ⟨_, hrest, hbehind⟩ := between_of_read h
  rw [hk] at hscan
  rw [eq_nil_of_scan hscan] at hrest
  obtain ⟨hnone, hnothing⟩ := List.append_eq_nil_iff.mp hrest.symm
  refine ⟨[], ?_, ?_, .nil⟩
  · rw [eq_nil_of_scan hscan, hnothing, List.append_nil]
  · rw [hbehind, hnone]

end

namespace Lexer

/-! ## What the next item can be -/

/-- The next item of a lexer, and the lexer behind it. -/
inductive Answers (l : Lexer) : Option (Except Error Token) → Lexer → Prop where
  | ended : l.ended = true → Answers l none l
  | atEnd {t : Token} {c : Cursor} : read (Token.skipLayout l.cursor) = .ok (t, c) →
    t.kind = .endOfFile → Answers l none ⟨c, true⟩
  | token {t : Token} {c : Cursor} : l.ended = false →
    read (Token.skipLayout l.cursor) = .ok (t, c) → Answers l (some (.ok t)) ⟨c, false⟩
  | error {e : Error} : read (Token.skipLayout l.cursor) = .error e →
    Answers l (some (.error e)) ⟨Token.skipLayout l.cursor, true⟩

theorem answers_next (l : Lexer) : l.Answers l.next.1 l.next.2 := by
  obtain ⟨c, ended⟩ := l
  cases ended with
  | true =>
    rw [next_of_ended rfl]
    exact .ended rfl
  | false =>
    cases hread : read (Token.skipLayout c) with
    | error e =>
      rw [next_of_error hread]
      exact .error hread
    | ok found =>
      obtain ⟨t, c'⟩ := found
      by_cases hk : t.kind = .endOfFile
      · rw [next_of_end hread hk]
        exact .atEnd hread hk
      · rw [next_of_token hread hk]
        exact .token rfl hread

/-- Nothing comes behind the end or an error. -/
def Ends (found : Option (Except Error Token)) : Prop :=
  found = none ∨ ∃ e, found = some (.error e)

theorem ended_of_next {l : Lexer} (h : Ends l.next.1) : l.next.2.ended = true := by
  have hanswers := l.answers_next
  generalize l.next.1 = found at h hanswers
  generalize l.next.2 = behind at hanswers ⊢
  cases hanswers with
  | ended hended => exact hended
  | atEnd _ _ => rfl
  | token _ _ =>
    rcases h with h | ⟨e, h⟩
    · cases h
    · cases h
  | error _ => rfl

/-! ## Calls -/

/-- What may be asked where copies of a lexer can be kept. -/
inductive Call where
  /-- Skip white space. -/
  | skipLayout
  /-- Take the token right here. -/
  | token
  /-- Give the next item. -/
  | next
  /-- Keep a copy. -/
  | save
  /-- Go on with a copy that was kept. -/
  | restore (index : Nat)

/-- What a call answers. -/
inductive Answer where
  | nothing
  /-- A token that was asked for, or an error. -/
  | token (found : Except Error Token)
  /-- The next item, if there is one. -/
  | item (found : Option (Except Error Token))

/-- The token that is answered, if there is one. -/
def Answer.token? : Answer → Option Token
  | .token (.ok t) => some t
  | .item (some (.ok t)) => some t
  | _ => none

/-- A lexer, and the copies that were kept. -/
structure Session where
  /-- The lexer that is asked. -/
  lexer : Lexer
  /-- The copies, in the order in which they were kept. -/
  copies : List Lexer

namespace Session

/-- A session that begins with a text. -/
def start (text : String) : Session := ⟨.ofText text, []⟩

/-- What a call answers. -/
def answer (s : Session) : Call → Answer
  | .skipLayout => .nothing
  | .token => .token s.lexer.token.1
  | .next => .item s.lexer.next.1
  | .save => .nothing
  | .restore _ => .nothing

/-- The session behind a call.  Where no copy has the index the lexer stays. -/
def after (s : Session) : Call → Session
  | .skipLayout => { s with lexer := s.lexer.skipLayout }
  | .token => { s with lexer := s.lexer.token.2 }
  | .next => { s with lexer := s.lexer.next.2 }
  | .save => { s with copies := s.copies ++ [s.lexer] }
  | .restore index => { s with lexer := s.copies[index]?.getD s.lexer }

/-- The session behind calls. -/
def run (s : Session) (calls : List Call) : Session := calls.foldl after s

/-- What calls answer, in order. -/
def answers (s : Session) : List Call → List Answer
  | [] => []
  | call :: calls => s.answer call :: (s.after call).answers calls

@[simp] theorem run_nil (s : Session) : s.run [] = s := rfl

@[simp] theorem run_cons (s : Session) (call : Call) (calls : List Call) :
    s.run (call :: calls) = (s.after call).run calls := rfl

/-- Nothing is restored. -/
def Forward (calls : List Call) : Prop := ∀ index, .restore index ∉ calls

/-- Of the copies only those are restored that are kept behind the first `n`. -/
def RestoresFrom (n : Nat) (calls : List Call) : Prop := ∀ index, .restore index ∈ calls → n ≤ index

/-- What can be relied on at a point of a session, whatever is called from there on. -/
structure Sound (source : String) (s : Session) : Prop where
  /-- Each token that is answered stands where it says. -/
  stands : ∀ calls, ∀ a ∈ s.answers calls, ∀ t ∈ a.token?, t.IsAt source
  /-- Until something is restored the cursor moves over white space and over the tokens that are
  answered, and over nothing else. -/
  moves : ∀ calls, Forward calls →
    Moves s.lexer.cursor (s.run calls).lexer.cursor ((s.answers calls).filterMap Answer.token?)
  /-- A token that is taken is right in front of the cursor, and it is all that the cursor moves
  over. -/
  takes : ∀ t, s.lexer.token.1 = .ok t → t.position = s.lexer.cursor.position ∧
    s.lexer.cursor.rest = t.text.toList ++ (s.after .token).lexer.cursor.rest
  /-- Where no token can be taken, nothing is changed. -/
  stays : ∀ e, s.lexer.token.1 = .error e → s.after .token = s
  /-- Behind the end or an error no item comes any more, not from a copy either that was kept
  since. -/
  ends : Ends s.lexer.next.1 → ∀ calls, RestoresFrom s.copies.length calls →
    ∀ found, .item found ∈ (s.after .next).answers calls → found = none
  /-- A copy stays as it was kept. -/
  keeps : ∀ calls, (((s.after .save).run calls).after (.restore s.copies.length)).lexer = s.lexer

/-! ## Tokens stand where they say -/

/-- The lexer and its copies are in the source. -/
structure In (source : String) (s : Session) : Prop where
  lexer : s.lexer.cursor.In source
  copies : ∀ l ∈ s.copies, l.cursor.In source

variable {source : String} {s : Session} {call : Call} {calls : List Call}

theorem in_start (source : String) : (start source).In source :=
  ⟨Cursor.in_ofText source, List.forall_mem_nil _⟩

theorem In.after (h : s.In source) (call : Call) : (s.after call).In source := by
  cases call with
  | skipLayout => exact ⟨in_skipLayout h.lexer, h.copies⟩
  | token => exact ⟨in_token h.lexer, h.copies⟩
  | next => exact ⟨in_next h.lexer, h.copies⟩
  | save =>
    refine ⟨h.lexer, ?_⟩
    intro l hl
    rcases List.mem_append.mp hl with hl | hl
    · exact h.copies l hl
    · rw [List.mem_singleton.mp hl]
      exact h.lexer
  | restore index =>
    refine ⟨?_, h.copies⟩
    simp only [Session.after]
    cases hcopy : s.copies[index]? with
    | none => exact h.lexer
    | some l => exact h.copies l (List.mem_of_getElem? hcopy)

theorem In.run (h : s.In source) (calls : List Call) : (s.run calls).In source := by
  induction calls generalizing s with
  | nil => exact h
  | cons call calls ih => exact ih (h.after call)

theorem In.isAt (h : s.In source) {t : Token} (ht : t ∈ (s.answer call).token?) :
    t.IsAt source := by
  cases call with
  | skipLayout => cases ht
  | token =>
    simp only [answer] at ht
    cases htoken : s.lexer.token.1 with
    | ok found =>
      rw [htoken] at ht
      cases ht
      exact isAt_of_token h.lexer htoken
    | error e =>
      rw [htoken] at ht
      cases ht
  | next =>
    simp only [answer] at ht
    cases hnext : s.lexer.next.1 with
    | none =>
      rw [hnext] at ht
      cases ht
    | some found =>
      cases found with
      | ok found =>
        rw [hnext] at ht
        cases ht
        exact isAt_of_token (h.after .skipLayout).lexer (next_fst hnext)
      | error e =>
        rw [hnext] at ht
        cases ht
  | save => cases ht
  | restore index => cases ht

theorem In.stands (h : s.In source) (calls : List Call) :
    ∀ a ∈ s.answers calls, ∀ t ∈ a.token?, t.IsAt source := by
  induction calls generalizing s with
  | nil =>
    intro a ha
    cases ha
  | cons call calls ih =>
    intro a ha t ht
    rcases List.mem_cons.mp ha with rfl | ha
    · exact h.isAt ht
    · exact ih (h.after call) a ha t ht

/-! ## Calls move over white space and tokens -/

theorem moves_after (s : Session) {call : Call} (h : ∀ index, call ≠ .restore index) :
    Moves s.lexer.cursor (s.after call).lexer.cursor (s.answer call).token?.toList := by
  cases call with
  | skipLayout => exact moves_skipLayout s.lexer.cursor
  | token =>
    simp only [answer, after]
    rw [Lexer.token]
    split
    · next hread => exact moves_read hread
    · exact moves_refl _
  | next =>
    simp only [answer, after]
    have hanswers := s.lexer.answers_next
    generalize s.lexer.next.1 = found at hanswers ⊢
    generalize s.lexer.next.2 = behind at hanswers ⊢
    have hskip := moves_skipLayout s.lexer.cursor
    cases hanswers with
    | ended _ => exact moves_refl _
    | atEnd hread hk => exact hskip.trans (moves_end hread hk)
    | token _ hread => exact hskip.trans (moves_read hread)
    | error _ => exact hskip
  | save => exact moves_refl _
  | restore index => exact absurd rfl (h index)

theorem moves_run (s : Session) {calls : List Call} (h : Forward calls) :
    Moves s.lexer.cursor (s.run calls).lexer.cursor
      ((s.answers calls).filterMap Answer.token?) := by
  induction calls generalizing s with
  | nil => exact moves_refl _
  | cons call calls ih =>
    have hcall : ∀ index, call ≠ .restore index := by
      rintro index rfl
      exact h index List.mem_cons_self
    have hcalls : Forward calls := fun index hmem => h index (List.mem_cons_of_mem _ hmem)
    have hfirst := s.moves_after hcall
    have hall := hfirst.trans (ih (s.after call) hcalls)
    rw [answers, List.filterMap_cons]
    cases htoken : (s.answer call).token? with
    | none =>
      rw [htoken] at hall
      exact hall
    | some t =>
      rw [htoken] at hall
      exact hall

/-! ## The end -/

/-- The lexer has ended, and so has each copy behind the first `n`. -/
structure Ended (n : Nat) (s : Session) : Prop where
  lexer : s.lexer.ended = true
  copies : ∀ l ∈ s.copies.drop n, l.ended = true

variable {n : Nat}

theorem Ended.after (h : s.Ended n) (hcall : ∀ index, call = .restore index → n ≤ index) :
    (s.after call).Ended n := by
  cases call with
  | skipLayout => exact ⟨h.lexer, h.copies⟩
  | token =>
    refine ⟨?_, h.copies⟩
    simp only [Session.after]
    rw [Lexer.token]
    split
    · exact h.lexer
    · exact h.lexer
  | next =>
    refine ⟨?_, h.copies⟩
    simp only [Session.after]
    rw [next_of_ended h.lexer]
    exact h.lexer
  | save =>
    refine ⟨h.lexer, ?_⟩
    intro l hl
    simp only [Session.after, List.drop_append, List.mem_append] at hl
    rcases hl with hl | hl
    · exact h.copies l hl
    · rw [List.mem_singleton.mp (List.mem_of_mem_drop hl)]
      exact h.lexer
  | restore index =>
    refine ⟨?_, h.copies⟩
    simp only [Session.after]
    cases hcopy : s.copies[index]? with
    | none => exact h.lexer
    | some l =>
      have hle : n ≤ index := hcall index rfl
      apply h.copies l
      apply List.mem_of_getElem? (i := index - n)
      rw [List.getElem?_drop, Nat.add_sub_cancel' hle, hcopy]

theorem Ended.answers (h : s.Ended n) (hcalls : RestoresFrom n calls)
    {found : Option (Except Error Token)} (hfound : .item found ∈ s.answers calls) :
    found = none := by
  induction calls generalizing s with
  | nil => cases hfound
  | cons call calls ih =>
    rcases List.mem_cons.mp hfound with hfirst | hmore
    · cases call with
      | next =>
        simp only [answer, Answer.item.injEq] at hfirst
        rw [hfirst, next_of_ended h.lexer]
      | skipLayout => cases hfirst
      | token => cases hfirst
      | save => cases hfirst
      | restore index => cases hfirst
    · refine ih (h.after ?_) ?_ hmore
      · rintro index rfl
        exact hcalls index List.mem_cons_self
      · intro index hmem
        exact hcalls index (List.mem_cons_of_mem _ hmem)

theorem ended_of_next (h : Ends s.lexer.next.1) : (s.after .next).Ended s.copies.length := by
  refine ⟨Lexer.ended_of_next h, ?_⟩
  intro l hl
  simp only [after, List.drop_length] at hl
  cases hl

/-! ## Copies -/

theorem copies_after (s : Session) (call : Call) : s.copies <+: (s.after call).copies := by
  cases call with
  | save => exact List.prefix_append _ _
  | skipLayout => exact List.prefix_refl _
  | token => exact List.prefix_refl _
  | next => exact List.prefix_refl _
  | restore index => exact List.prefix_refl _

theorem copies_run (s : Session) (calls : List Call) : s.copies <+: (s.run calls).copies := by
  induction calls generalizing s with
  | nil => exact List.prefix_refl _
  | cons call calls ih => exact (s.copies_after call).trans (ih (s.after call))

/-- Whatever is called in between, a copy is the lexer of which it was kept. -/
theorem lexer_restore_save (s : Session) (calls : List Call) :
    (((s.after .save).run calls).after (.restore s.copies.length)).lexer = s.lexer := by
  obtain ⟨more, hmore⟩ := (s.after .save).copies_run calls
  have hcopy : ((s.after .save).run calls).copies[s.copies.length]? = some s.lexer := by
    rw [← hmore]
    simp [after]
  generalize (s.after .save).run calls = behind at hcopy ⊢
  rw [after, hcopy]
  rfl

/-! ## All sessions -/

theorem In.sound (h : s.In source) : s.Sound source where
  stands := h.stands
  moves calls hcalls := s.moves_run hcalls
  takes t ht := by
    simp only [Session.after]
    rw [Lexer.token] at ht ⊢
    split at ht
    · next hread =>
      cases ht
      obtain ⟨hposition, hrest, _⟩ := between_of_read hread
      exact ⟨hposition, hrest⟩
    · cases ht
  stays e he := by
    simp only [Session.after]
    rw [Lexer.token] at he ⊢
    split at he
    · cases he
    · rfl
  ends hends calls hcalls found hfound := (ended_of_next hends).answers hcalls hfound
  keeps calls := s.lexer_restore_save calls

/-- Whatever is called, in any order, what can be relied on holds of the session.  All that a lexer
gives that begins with a text are tokens that cover the text, or tokens that cover the front of the
text and the error behind it. -/
theorem sound_run (source : String) :
    (∀ calls, ((start source).run calls).Sound source) ∧
      ∃ (ts : List Token) (e : Option Error),
        (∀ items, (Lexer.ofText source).Gives items ↔ items = ts.map .ok ++ (e.map .error).toList) ∧
        ∃ front behind, source.toList = front ++ behind ∧ Covers .start front ts ∧
          (e = none → behind = []) ∧
          ∀ fault ∈ e, ∃ found, fault = .unrecognized (Position.start.advance front) found := by
  constructor
  · intro calls
    exact ((in_start source).run calls).sound
  · refine ⟨(scanText source).items, (scanText source).error?, ?_, (reads_scanText source).covers⟩
    intro items
    constructor
    · intro h
      exact h.unique (gives_scanText source)
    · rintro rfl
      exact gives_scanText source

/-- A copy is kept in front of a character that is no token.  Behind the error no item comes, not
from a second copy that is kept there either. -/
theorem sound_run_error :
    Ends ((start "a @").run [.next, .save]).lexer.next.1 ∧
      RestoresFrom 1 [.skipLayout, .token, .save, .next, .restore 1, .next] ∧
      ∀ found, .item found ∈ (((start "a @").run [.next, .save]).after .next).answers
        [.skipLayout, .token, .save, .next, .restore 1, .next] → found = none := by
  have hends : Ends ((start "a @").run [.next, .save]).lexer.next.1 :=
    .inr ⟨.unrecognized ⟨2, 1, 3⟩ "@", by cbv⟩
  have hrestores : RestoresFrom 1 [.skipLayout, .token, .save, .next, .restore 1, .next] := by
    intro index hmem
    simp at hmem
    omega
  exact ⟨hends, hrestores, ((sound_run "a @").1 [.next, .save]).ends hends _ hrestores⟩

end Session

end Lexer

end EngineHeader
