import EngineHeader.Proofs.Checked.Slice
import EngineHeader.Proofs.Declaration.Inversion

/-!
# A cursor among tokens

A parser that goes over a list of tokens with a cursor, the index of the next token, and counts the
callbacks that are open around it.  A *call* of the parser gives a value or an error, and both times
it also gives the state behind it.  It gives no result at all where

* the cursor would leave the tokens (`moveTo`), or a token or the tokens behind the cursor are taken
  where there are none (`tokenAt`, `upcoming`),
* the count would pass its limit or go below zero (`deeper`, `shallower`), or is another one behind
  a call than in front of it (`call`).

A loop has to move the cursor in every round.

The cursor stands somewhere in a text of words.  `At` says which comments and which words are behind
it, and each operation of the cursor is told by what it does with these.
-/

namespace EngineHeader.Checked.Parser

open Declaration
open Token (Kind Word Words)

/-- What a parser reads. -/
structure Input where
  /-- The tokens. -/
  tokens : List Token
  /-- Where the text ends. -/
  ending : Position
  /-- How it is to be read. -/
  dialect : Dialect

/-- Where a parser is. -/
structure State where
  /-- The index of the next token. -/
  next : Nat
  /-- The callbacks that are open. -/
  depth : Nat
deriving DecidableEq, Repr

/-- A call of the parser. -/
abbrev Call (α : Type) : Type := ExceptT Error (StateT State Option) α

variable {α β : Type} {i : Input}

/-! ## Calls -/

/-- The index of the next token. -/
def cursor : Call Nat := fun s => some (.ok s.next, s)

/-- The callbacks that are open. -/
def openCallbacks : Call Nat := fun s => some (.ok s.depth, s)

/-- Move the cursor. -/
def moveTo (i : Input) (n : Nat) : Call Unit := fun s =>
  if n ≤ i.tokens.length then some (.ok (), { s with next := n }) else none

/-- The token at an index. -/
def tokenAt (i : Input) (n : Nat) : Call Token := fun s => i.tokens[n]?.map fun t => (.ok t, s)

/-- The kinds of the tokens behind the cursor, comments aside. -/
def upcoming (i : Input) : Call (List Kind) := fun s =>
  if s.next ≤ i.tokens.length then
    some (.ok (((i.tokens.drop s.next).map Token.kind).filter (· != .comment)), s)
  else none

/-- One more callback is open. -/
def deeper : Call Unit := fun s =>
  if s.depth + 1 ≤ maxNesting then some (.ok (), { s with depth := s.depth + 1 }) else none

/-- One callback less is open. -/
def shallower : Call Unit := fun s =>
  if 1 ≤ s.depth then some (.ok (), { s with depth := s.depth - 1 }) else none

/-- What comes of a call, also if this is an error. -/
def attempt (p : Call α) : Call (Except Error α) := fun s => (p s).map fun (r, s) => (.ok r, s)

/-- Give what came of a call. -/
def settle (r : Except Error α) : Call α := fun s => some (r, s)

/-- A call that has to leave the count of open callbacks as it was. -/
def call (p : Call α) : Call α := fun s => do
  let (r, s') ← p s
  if s'.depth = s.depth then some (r, s') else none

/-- A loop.  Each round has to move the cursor. -/
def loop (i : Input) (round : β → Call (Step β α)) (b : β) : Call α := fun s =>
  iterate (fun x : β × State => i.tokens.length - x.2.next)
    (fun (b, s) => (round b s).map fun
      | (.ok (.next b), s) => .next (b, s)
      | (.ok (.done a), s) => .done (.ok a, s)
      | (.error e, s) => .done (.error e, s)) (b, s)

variable {p : Call α} {q : α → Call β} {s s' : State} {a : α} {e : Error}

theorem bind_ok (h : p s = some (.ok a, s')) : (p >>= q) s = q a s' := by
  change (p s).bind _ = _
  rw [h]
  rfl

theorem bind_error (h : p s = some (.error e, s')) : (p >>= q) s = some (.error e, s') := by
  change (p s).bind _ = _
  rw [h]
  rfl

/-- Two calls with one result, and another call behind them. -/
theorem bind_congr_left {p' : Call α} (h : p s = p' s') : (p >>= q) s = (p' >>= q) s' :=
  congrArg (Option.bind · _) h

theorem call_of_depth {r : Except Error α} (h : p s = some (r, s')) (hdepth : s'.depth = s.depth) :
    call p s = some (r, s') := by
  rw [call, h]
  exact if_pos hdepth

theorem attempt_eq {r : Except Error α} (h : p s = some (r, s')) :
    attempt p s = some (.ok r, s') := by
  rw [attempt, h]
  rfl

section Loops

variable {round : β → Call (Step β α)} {b b' : β}

theorem loop_done (h : round b s = some (.ok (.done a), s')) :
    loop i round b s = some (.ok a, s') :=
  iterate_done (by dsimp only; rw [h]; rfl)

theorem loop_error (h : round b s = some (.error e, s')) :
    loop i round b s = some (.error e, s') :=
  iterate_done (by dsimp only; rw [h]; rfl)

theorem loop_next (h : round b s = some (.ok (.next b'), s')) (hlt : s.next < s'.next)
    (hle : s'.next ≤ i.tokens.length) : loop i round b s = loop i round b' s' :=
  iterate_next (by dsimp only; rw [h]; rfl) (by dsimp only; omega)

end Loops

/-! ## Tokens -/

/-- A round of `peek`. -/
def peekRound (i : Input) (_ : Unit) : Call (Step Unit (Option Kind)) := do
  let n ← cursor
  match i.tokens[n]? with
  | none => return .done none
  | some t =>
    if t.kind = .comment then
      moveTo i (n + 1)
      return .next ()
    else return .done (some t.kind)

/-- The kind of the next token that is not a comment.  The cursor goes behind the comments in front
of it. -/
def peek (i : Input) : Call (Option Kind) := loop i (peekRound i) ()

/-- Take the token at the cursor. -/
def take (i : Input) : Call Token := do
  let n ← cursor
  let t ← tokenAt i n
  moveTo i (n + 1)
  return t

/-- Take the next word if it is of a kind. -/
def eat (i : Input) (kind : Kind) : Call Bool := call do
  if (← peek i) = some kind then
    moveTo i ((← cursor) + 1)
    return true
  else return false

/-- The error of a text that needs something else than the next word. -/
def errorHere (i : Input) (expected : Expected) : Call Error := call do
  let _ ← peek i
  match i.tokens[← cursor]? with
  | some t => return .grammar t expected
  | none => return .grammar (.atEnd i.ending) expected

/-- The next word, which has to be of a kind. -/
def expect (i : Input) (kind : Kind) (expected : Expected) : Call Token := call do
  if (← peek i) = some kind then take i else throw (← errorHere i expected)

/-- The next word, which is known to be of a kind.  If it is not, there is no result. -/
def demand (i : Input) (kind : Kind) : Call Token := call do
  if (← peek i) = some kind then take i else fun _ => none

/-- The comment at the cursor, if there is one and it begins on the line. -/
def comment? (i : Input) (line? : Option Nat) : Call (Option String) := call do
  let n ← cursor
  match i.tokens[n]? with
  | none => return none
  | some t =>
    if t.kind = .comment && line?.all (t.position.line == ·) then
      moveTo i (n + 1)
      return some t.text
    else return none

/-! ## Words at the cursor -/

/-- These comments are behind the cursor, and then these words. -/
structure At (i : Input) (s : State) (leading : List Token) (ws : List Word) : Prop where
  next_le : s.next ≤ i.tokens.length
  words : Words.ofTokens (i.tokens.drop s.next) = ⟨leading, ws⟩

/-- These words are behind the cursor. -/
def Behind (i : Input) (s : State) (ws : List Word) : Prop := ∃ leading, At i s leading ws

/-- The state with the cursor behind one more token. -/
def State.step (s : State) : State := { s with next := s.next + 1 }

/-- What the token at the cursor is. -/
inductive Next (i : Input) (s : State) : List Token → List Word → Prop where
  | nothing : i.tokens[s.next]? = none → Next i s [] []
  | comment {t : Token} {more : List Token} {ws : List Word} : i.tokens[s.next]? = some t →
    t.kind = .comment → At i s.step more ws → Next i s (t :: more) ws
  | word {w : Word} {rest : List Word} : i.tokens[s.next]? = some w.token → w.kind ≠ .comment →
    At i s.step w.comments rest → Next i s [] (w :: rest)

variable {leading : List Token} {ws rest : List Word} {w : Word} {kind : Kind}

theorem At.behind (h : At i s leading ws) : Behind i s ws := ⟨leading, h⟩

theorem At.next (h : At i s leading ws) : Next i s leading ws := by
  obtain ⟨hle, hwords⟩ := h
  cases hdrop : i.tokens.drop s.next with
  | nil =>
    rw [hdrop] at hwords
    cases hwords
    refine .nothing (List.getElem?_eq_none ?_)
    exact List.drop_eq_nil_iff.mp hdrop
  | cons t more =>
    have hhere : i.tokens[s.next]? = some t := by
      rw [← List.head?_drop, hdrop, List.head?_cons]
    have hmore : i.tokens.drop (s.next + 1) = more := by
      rw [← List.drop_drop, hdrop]
      rfl
    have hlt : s.next < i.tokens.length := by
      by_contra hge
      rw [List.drop_eq_nil_iff.mpr (Nat.not_lt.mp hge)] at hdrop
      cases hdrop
    rw [hdrop, Words.ofTokens_cons] at hwords
    split at hwords
    · next hk =>
      cases hwords
      exact .comment hhere hk ⟨hlt, congrArg Words.ofTokens hmore⟩
    · next hk =>
      cases hwords
      exact .word hhere hk ⟨hlt, congrArg Words.ofTokens hmore⟩

theorem moveTo_eq {n : Nat} (h : n ≤ i.tokens.length) :
    moveTo i n s = some (.ok (), { s with next := n }) := if_pos h

theorem moveTo_step (h : At i s.step leading ws) :
    moveTo i (s.next + 1) s = some (.ok (), s.step) := moveTo_eq h.next_le

theorem peek_eq (h : At i s leading ws) :
    ∃ s', peek i s = some (.ok (ws.head?.map Word.kind), s') ∧ s'.depth = s.depth ∧
      At i s' [] ws := by
  induction leading generalizing s with
  | nil =>
    refine ⟨s, loop_done ?_, rfl, h⟩
    cases h.next with
    | nothing hnone =>
      rw [peekRound, bind_ok rfl, hnone]
      rfl
    | word hsome hk _ =>
      rw [peekRound, bind_ok rfl, hsome]
      exact congrFun (if_neg hk) s
  | cons t more ih =>
    cases h.next with
    | comment hsome hk hat =>
      obtain ⟨s', hpeek, hdepth, hat'⟩ := ih hat
      refine ⟨s', Eq.trans (loop_next ?_ (Nat.lt_succ_self _) hat.next_le) hpeek, hdepth, hat'⟩
      rw [peekRound, bind_ok rfl, hsome]
      dsimp only
      rw [if_pos hk, bind_ok (moveTo_step hat)]
      rfl

/-- The cursor goes over a word, and the comments behind it are in front. -/
theorem take_eq (h : At i s [] (w :: rest)) :
    take i s = some (.ok w.token, s.step) ∧ w.kind ≠ .comment ∧ At i s.step w.comments rest := by
  cases h.next with
  | word hsome hk hat =>
    have htoken : tokenAt i s.next s = some (.ok w.token, s) := by
      rw [tokenAt, hsome]
      rfl
    refine ⟨?_, hk, hat⟩
    rw [take, bind_ok rfl, bind_ok htoken, bind_ok (moveTo_step hat)]
    rfl

/-- The error points at the next word, or at the end. -/
theorem errorHere_eq (h : Behind i s ws) (expected : Expected) :
    ∃ s', errorHere i expected s =
        some (.ok ((⟨ws, expected⟩ : Declaration.Parser.Stuck).error i.ending), s') ∧
      s'.depth = s.depth ∧ At i s' [] ws := by
  obtain ⟨leading, hat⟩ := h
  obtain ⟨s', hpeek, hdepth, hat'⟩ := peek_eq hat
  refine ⟨s', call_of_depth ?_ hdepth, hdepth, hat'⟩
  rw [bind_ok hpeek, bind_ok rfl]
  cases hat'.next with
  | nothing hnone =>
    rw [hnone]
    rfl
  | word hsome _ _ =>
    rw [hsome]
    rfl

/-! ## Choices -/

theorem peek_some {hlt : rest.length < ws.length} (h : Behind i s ws)
    (haccept : Declaration.Parser.accept? kind ws = some ⟨w, rest, hlt⟩) :
    ∃ s', peek i s = some (.ok (some kind), s') ∧ s'.depth = s.depth ∧ At i s' [] (w :: rest) := by
  obtain ⟨leading, hat⟩ := h
  obtain ⟨rfl, hk⟩ := Declaration.Parser.accept?_eq_some haccept
  obtain ⟨s', hpeek, hdepth, hat'⟩ := peek_eq hat
  rw [List.head?_cons, Option.map_some, hk] at hpeek
  exact ⟨s', hpeek, hdepth, hat'⟩

theorem head?_kind_iff :
    ws.head?.map Word.kind = some kind ↔ Declaration.Parser.startsWith kind ws = true := by
  cases ws with
  | nil => exact iff_of_false (fun hsome => nomatch hsome) Bool.false_ne_true
  | cons w ws => simp [Declaration.Parser.startsWith]

/-- Whether the next word is of a kind. -/
theorem peek_startsWith (h : Behind i s ws) (kind : Kind) :
    ∃ k s', peek i s = some (.ok k, s') ∧
      (k = some kind ↔ Declaration.Parser.startsWith kind ws = true) ∧ s'.depth = s.depth ∧
      At i s' [] ws := by
  obtain ⟨leading, hat⟩ := h
  obtain ⟨s', hpeek, hdepth, hat'⟩ := peek_eq hat
  exact ⟨_, s', hpeek, head?_kind_iff, hdepth, hat'⟩

theorem peek_none (h : Behind i s ws) (haccept : Declaration.Parser.accept? kind ws = none) :
    ∃ k s', peek i s = some (.ok k, s') ∧ k ≠ some kind ∧ s'.depth = s.depth ∧ At i s' [] ws := by
  obtain ⟨k, s', hpeek, hk, hdepth, hat⟩ := peek_startsWith h kind
  rw [Declaration.Parser.startsWith_of_accept? haccept] at hk
  exact ⟨k, s', hpeek, fun hsome => Bool.false_ne_true (hk.mp hsome), hdepth, hat⟩

theorem eat_some {hlt : rest.length < ws.length} (h : Behind i s ws)
    (haccept : Declaration.Parser.accept? kind ws = some ⟨w, rest, hlt⟩) :
    ∃ s', eat i kind s = some (.ok true, s') ∧ s'.depth = s.depth ∧ At i s' w.comments rest := by
  obtain ⟨s', hpeek, hdepth, hat'⟩ := peek_some h haccept
  obtain ⟨-, -, hbehind⟩ := take_eq hat'
  refine ⟨s'.step, call_of_depth ?_ hdepth, hdepth, hbehind⟩
  rw [bind_ok hpeek, if_pos rfl, bind_ok rfl, bind_ok (moveTo_step hbehind)]
  rfl

theorem eat_none (h : Behind i s ws) (haccept : Declaration.Parser.accept? kind ws = none) :
    ∃ s', eat i kind s = some (.ok false, s') ∧ s'.depth = s.depth ∧ At i s' [] ws := by
  obtain ⟨k, s', hpeek, hk, hdepth, hat'⟩ := peek_none h haccept
  refine ⟨s', call_of_depth ?_ hdepth, hdepth, hat'⟩
  rw [bind_ok hpeek, if_neg hk]
  rfl

theorem demand_eq {hlt : rest.length < ws.length} (h : Behind i s ws)
    (haccept : Declaration.Parser.accept? kind ws = some ⟨w, rest, hlt⟩) :
    ∃ s', demand i kind s = some (.ok w.token, s') ∧ s'.depth = s.depth ∧
      At i s' w.comments rest := by
  obtain ⟨s', hpeek, hdepth, hat'⟩ := peek_some h haccept
  obtain ⟨htake, -, hbehind⟩ := take_eq hat'
  refine ⟨s'.step, call_of_depth ?_ hdepth, hdepth, hbehind⟩
  rw [bind_ok hpeek, if_pos rfl]
  exact htake

theorem expect_some {hlt : rest.length < ws.length} (h : Behind i s ws)
    (haccept : Declaration.Parser.accept? kind ws = some ⟨w, rest, hlt⟩) (expected : Expected) :
    ∃ s', expect i kind expected s = some (.ok w.token, s') ∧ s'.depth = s.depth ∧
      At i s' w.comments rest := by
  obtain ⟨s', hpeek, hdepth, hat'⟩ := peek_some h haccept
  obtain ⟨htake, -, hbehind⟩ := take_eq hat'
  refine ⟨s'.step, call_of_depth ?_ hdepth, hdepth, hbehind⟩
  rw [bind_ok hpeek, if_pos rfl]
  exact htake

/-- The comment that is taken is the first one at the cursor. -/
theorem comment?_eq (h : At i s leading ws) (line? : Option Nat) :
    ∃ s', comment? i line? s = some (.ok (leading.head?.bind fun t =>
        if line?.all (t.position.line == ·) then some t.text else none), s') ∧
      s'.depth = s.depth ∧ Behind i s' ws := by
  cases h.next with
  | nothing hnone =>
    refine ⟨s, call_of_depth ?_ rfl, rfl, h.behind⟩
    rw [bind_ok rfl, hnone]
    rfl
  | @word w _ hsome hk _ =>
    have hno : decide (w.token.kind = .comment) = false := decide_eq_false hk
    refine ⟨s, call_of_depth ?_ rfl, rfl, h.behind⟩
    rw [bind_ok rfl, hsome]
    dsimp only
    rw [hno]
    rfl
  | @comment t more ws hsome hk hat =>
    rw [List.head?_cons, Option.bind_some]
    by_cases hline : line?.all (t.position.line == ·) = true
    · refine ⟨s.step, call_of_depth ?_ rfl, rfl, hat.behind⟩
      rw [bind_ok rfl, hsome, if_pos hline]
      dsimp only
      rw [hline, Bool.and_true, if_pos (decide_eq_true hk), bind_ok (moveTo_step hat)]
      rfl
    · refine ⟨s, call_of_depth ?_ rfl, rfl, h.behind⟩
      rw [bind_ok rfl, hsome, if_neg hline]
      dsimp only
      rw [if_neg (fun hand => hline (Bool.and_eq_true_iff.mp hand).2)]
      rfl

/-! ## The kinds of words -/

/-- The words are the tokens that are not comments. -/
theorem kinds_words (ts : List Token) :
    (ts.map Token.kind).filter (· != .comment) = (Words.ofTokens ts).words.map Word.kind := by
  induction ts with
  | nil => rfl
  | cons t ts ih =>
    rw [Words.ofTokens_cons, List.map_cons, List.filter_cons, ih]
    by_cases hk : t.kind = .comment
    · simp [hk]
    · simp [hk, Word.kind]

theorem upcoming_eq (h : Behind i s ws) : upcoming i s = some (.ok (ws.map Word.kind), s) := by
  obtain ⟨leading, hle, hwords⟩ := h
  have hkinds := kinds_words (i.tokens.drop s.next)
  rw [hwords] at hkinds
  rw [upcoming, if_pos hle, hkinds]

/-- Where fewer words are left, the cursor is further.  If not, the tokens behind one cursor are
among those behind the other, and so are the words. -/
theorem next_lt (h : Behind i s ws) (h' : Behind i s' rest) (hlt : rest.length < ws.length) :
    s.next < s'.next := by
  obtain ⟨leading, _, hwords⟩ := h
  obtain ⟨leading', _, hwords'⟩ := h'
  by_contra hge
  obtain ⟨k, hk⟩ := Nat.exists_eq_add_of_le (Nat.not_lt.mp hge)
  have hsub : (i.tokens.drop s.next).Sublist (i.tokens.drop s'.next) := by
    rw [hk, ← List.drop_drop]
    exact List.drop_sublist _ _
  have hkinds := ((hsub.map Token.kind).filter (· != .comment)).length_le
  rw [kinds_words, kinds_words, hwords, hwords', List.length_map, List.length_map] at hkinds
  exact absurd hlt (Nat.not_lt.mpr hkinds)

end EngineHeader.Checked.Parser
