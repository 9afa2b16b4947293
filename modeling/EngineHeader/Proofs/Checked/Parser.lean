import EngineHeader.Proofs.Checked.Cursor

/-!
# Declarations by a cursor

The grammar of declarations over a list of tokens, with a cursor that is moved, and that is set back
where a callback was expected and none is there.  There is one call for each function of the parser
over words, and one lemma that the two agree (`Agrees`): the call gives the same value and leaves
the cursor in front of the same words, or it gives the error that points at the words that were
left.

A callback asks for its arguments behind one more open parenthesis, so the calls for arguments are
nested.  How deep they may be is a number that each of them passes on, less by one, and a call
beyond it would have no result.  It is never reached, because the count of open callbacks comes to
its limit first.
-/

namespace EngineHeader.Checked.Parser

open Declaration
open Token (Kind Word Words)
open Declaration.Parser (Reading Stuck)

/-! ## Agreement -/

/-- A call from a state does what reading words does.  The count of open callbacks is as it was. -/
inductive Agrees {α β : Type} (i : Input) (depth : Nat) (R : β → List Word → α → State → Prop)
    {ws : List Word} : Reading β ws → Option (Except Error α × State) → Prop where
  | stuck {stuck : Stuck} {s : State} : s.depth = depth → s.next ≤ i.tokens.length →
    Agrees i depth R (.error stuck) (some (.error (stuck.error i.ending), s))
  | taken {b : β} {rest : List Word} {h : rest.length < ws.length} {a : α} {s : State} :
    s.depth = depth → R b rest a s → Agrees i depth R (.ok ⟨b, rest, h⟩) (some (.ok a, s))

/-- The value is the same, and so are the words that are left. -/
def Same {β : Type} (i : Input) (b : β) (rest : List Word) (a : β) (s : State) : Prop :=
  a = b ∧ Behind i s rest

/-- The word is the token, and the comments behind it are in front. -/
def SameToken (i : Input) (w : Word) (rest : List Word) (t : Token) (s : State) : Prop :=
  t = w.token ∧ At i s w.comments rest

variable {α β γ δ : Type} {i : Input} {depth : Nat} {s s' : State} {ws us rest : List Word}
  {kind : Kind} {expected : Expected}
  {R : β → List Word → α → State → Prop} {S : δ → List Word → γ → State → Prop}

theorem Agrees.bind {r : Reading β us} {p : Call α} {f : Taken β us → Reading δ ws}
    {q : α → Call γ} (h : Agrees i depth R r (p s))
    (hf : ∀ {b rest a s'} (hlt : rest.length < us.length), s'.depth = depth → R b rest a s' →
      Agrees i depth S (f ⟨b, rest, hlt⟩) (q a s')) :
    Agrees i depth S (r >>= f) ((p >>= q) s) := by
  generalize hp : p s = result at h
  cases h with
  | stuck hdepth hle =>
    rw [bind_error hp]
    exact .stuck hdepth hle
  | taken hdepth hR =>
    rw [bind_ok hp]
    exact hf _ hdepth hR

theorem Agrees.ok_bind {t : Taken β us} {f : Taken β us → Reading δ ws}
    {result : Option (Except Error γ × State)} (h : Agrees i depth S (f t) result) :
    Agrees i depth S (.ok t >>= f) result := h

/-- What was read becomes part of something larger. -/
theorem Agrees.map {r : Reading β us} {result : Option (Except Error α × State)}
    {f : Taken β us → Reading δ ws} {S : δ → List Word → α → State → Prop}
    (h : Agrees i depth R r result)
    (hf : ∀ {b rest} (hlt : rest.length < us.length), ∃ d hlt',
      f ⟨b, rest, hlt⟩ = .ok ⟨d, rest, hlt'⟩ ∧ ∀ {a s}, R b rest a s → S d rest a s) :
    Agrees i depth S (r >>= f) result := by
  cases h with
  | stuck hdepth hle => exact .stuck hdepth hle
  | @taken b rest hlt a s hdepth hR =>
    obtain ⟨d, hlt', heq, hS⟩ := hf (b := b) hlt
    change Agrees i depth S (f ⟨b, rest, hlt⟩) _
    rw [heq]
    exact .taken hdepth (hS hR)

/-- A call that agrees leaves the count of open callbacks as it was. -/
theorem Agrees.call {r : Reading β ws} {p : Call α} (hdepth : s.depth = depth)
    (h : Agrees i depth R r (p s)) : Agrees i depth R r (call p s) := by
  generalize hp : p s = result at h
  cases h with
  | stuck hd hle =>
    rw [call_of_depth hp (hd.trans hdepth.symm)]
    exact .stuck hd hle
  | taken hd hR =>
    rw [call_of_depth hp (hd.trans hdepth.symm)]
    exact .taken hd hR

/-- Behind a call without an error. -/
theorem Agrees.of_ok {r : Reading δ ws} {p : Call α} {q : α → Call γ} {a : α}
    (hp : p s = some (.ok a, s')) (h : Agrees i depth S r (q a s')) :
    Agrees i depth S r ((p >>= q) s) := by
  rwa [bind_ok hp]

section Loops

variable {σ : Type} {round : σ → Call (Step σ α)} {b : σ} {k : α → Call γ} {n : Nat}

/-- What comes behind a round that began at an index: the loop once more, if the cursor is further,
or what is behind the loop. -/
def again (i : Input) (n : Nat) (round : σ → Call (Step σ α)) (k : α → Call γ) :
    Step σ α → Call γ
  | .next b => fun s =>
    if n < s.next ∧ s.next ≤ i.tokens.length then (loop i round b >>= k) s else none
  | .done a => k a

theorem again_next (hlt : n < s.next) (hle : s.next ≤ i.tokens.length) :
    again i n round k (.next b) s = (loop i round b >>= k) s := if_pos ⟨hlt, hle⟩

theorem again_done {a : α} : again i n round k (.done a) = k a := rfl

/-- A loop agrees if its first round does, with the rest of the loop behind it. -/
theorem Agrees.of_round {r : Reading δ ws}
    (h : Agrees i depth S r ((round b >>= again i s.next round k) s)) :
    Agrees i depth S r ((loop i round b >>= k) s) := by
  cases hround : round b s with
  | none =>
    have hnone : (round b >>= again i s.next round k) s = none := by
      change (round b s).bind _ = none
      rw [hround]
      rfl
    rw [hnone] at h
    cases h
  | some result =>
    obtain ⟨value, s'⟩ := result
    cases value with
    | error e =>
      rw [bind_error hround] at h
      rwa [bind_error (loop_error hround)]
    | ok step =>
      rw [bind_ok hround] at h
      cases step with
      | done a => rwa [bind_ok (loop_done hround)]
      | next b' =>
        dsimp only [again] at h
        split at h
        · next hgood => rwa [bind_congr_left (loop_next hround hgood.1 hgood.2)]
        · cases h

end Loops

/-- The error of a text that needs something else than the next word. -/
theorem agrees_error {p : Error → Call α} (hdepth : s.depth = depth) (h : Behind i s ws)
    (hp : ∀ e s, p e s = some (.error e, s)) :
    Agrees i depth R (.error ⟨ws, expected⟩ : Reading β us) ((errorHere i expected >>= p) s) := by
  obtain ⟨s', herror, hd, hat⟩ := errorHere_eq h expected
  rw [bind_ok herror, hp]
  exact .stuck (hd.trans hdepth) hat.next_le

theorem expect_agrees (hdepth : s.depth = depth) (h : Behind i s ws) :
    Agrees i depth (SameToken i) (Declaration.Parser.expect kind expected ws)
      (expect i kind expected s) := by
  obtain ⟨leading, hat⟩ := h
  obtain ⟨s', hpeek, hd, hat'⟩ := peek_eq hat
  refine .call hdepth (.of_ok hpeek ?_)
  cases ws with
  | nil => exact agrees_error (hd.trans hdepth) hat'.behind fun _ _ => rfl
  | cons w rest =>
    rw [Declaration.Parser.expect, List.head?_cons, Option.map_some]
    by_cases hk : w.kind = kind
    · obtain ⟨htake, -, hbehind⟩ := take_eq hat'
      rw [if_pos hk, if_pos (congrArg some hk), htake]
      exact .taken (hd.trans hdepth) ⟨rfl, hbehind⟩
    · rw [if_neg hk, if_neg (fun hsome => hk (Option.some.inj hsome))]
      exact agrees_error (hd.trans hdepth) hat'.behind fun _ _ => rfl

/-! ## Names and types -/

/-- The name that the next word is. -/
def name (i : Input) (expected : Expected) : Call String := call do
  let t ← expect i .identifier expected
  return t.text

/-- The name that the next word is, if it is one. -/
def optionalName (i : Input) : Call (Option String) := call do
  if (← peek i) = some .identifier then
    let t ← demand i .identifier
    return some t.text
  else return none

/-- One star more, counted in eight bits. -/
def increment (n : Nat) : Call Nat := fun s => if n + 1 < 0x100 then some (.ok (n + 1), s) else none

/-- A round of the loop for stars. -/
def starsRound (i : Input) (n : Nat) : Call (Step Nat Nat) := do
  if n < i.dialect.maxIndirection then
    if ← eat i .star then
      let n ← increment n
      return .next n
    else return .done n
  else return .done n

/-- A base type.  Stars beyond the limit of the dialect are left. -/
def baseType (i : Input) : Call BaseType := call do
  let isConst ← eat i .constWord
  let typeName ← name i .typeName
  let indirection ← loop i (starsRound i) 0
  return ⟨isConst, typeName, indirection⟩

theorem name_agrees (hdepth : s.depth = depth) (h : Behind i s ws) :
    Agrees i depth (Same i) (Declaration.Parser.name expected ws) (name i expected s) := by
  refine .call hdepth ((expect_agrees hdepth h).bind ?_)
  rintro w rest t s' hlt hd ⟨ht, hat⟩
  exact .taken hd ⟨congrArg Token.text ht, hat.behind⟩

theorem name_some {w : Word} (h : Behind i s (w :: rest)) (hk : w.kind = .identifier)
    (expected : Expected) :
    ∃ s', name i expected s = some (.ok w.text, s') ∧ s'.depth = s.depth ∧ Behind i s' rest := by
  obtain ⟨s', hexpect, hd, hat⟩ := expect_some h (Declaration.Parser.accept?_cons hk) expected
  refine ⟨s', call_of_depth ?_ hd, hd, hat.behind⟩
  rw [bind_ok hexpect]
  rfl

theorem optionalName_eq (h : Behind i s ws) :
    ∃ s', optionalName i s = some (.ok (Declaration.Parser.optionalName ws).value, s') ∧
      s'.depth = s.depth ∧ Behind i s' (Declaration.Parser.optionalName ws).rest := by
  rw [Declaration.Parser.optionalName]
  cases haccept : Declaration.Parser.accept? .identifier ws with
  | none =>
    obtain ⟨k, s', hpeek, hk, hd, hat⟩ := peek_none h haccept
    refine ⟨s', call_of_depth ?_ hd, hd, hat.behind⟩
    rw [bind_ok hpeek, if_neg hk]
    rfl
  | some t =>
    obtain ⟨w, rest, hlt⟩ := t
    obtain ⟨rfl, -⟩ := Declaration.Parser.accept?_eq_some haccept
    obtain ⟨s₁, hpeek, hd₁, hat₁⟩ := peek_some h haccept
    obtain ⟨s₂, hdemand, hd₂, hat₂⟩ := demand_eq hat₁.behind haccept
    refine ⟨s₂, call_of_depth ?_ (hd₂.trans hd₁), hd₂.trans hd₁, hat₂.behind⟩
    rw [bind_ok hpeek, if_pos rfl, bind_ok hdemand]
    rfl

/-- The stars are counted as they are.  No dialect comes near to what eight bits can hold. -/
theorem stars_eq {n limit : Nat} (h : Behind i s ws) (hn : n + limit = i.dialect.maxIndirection) :
    ∃ s', loop i (starsRound i) n s =
        some (.ok (n + (Declaration.Parser.stars limit ws).value), s') ∧
      s'.depth = s.depth ∧ Behind i s' (Declaration.Parser.stars limit ws).rest := by
  have hmax : i.dialect.maxIndirection ≤ 2 := by
    cases i.dialect with
    | native => exact Nat.le_succ 1
    | extension => exact Nat.le_refl 2
  induction limit generalizing n s ws with
  | zero =>
    refine ⟨s, loop_done ?_, rfl, h⟩
    rw [starsRound, if_neg (by omega)]
    rfl
  | succ limit ih =>
    have hlt : n < i.dialect.maxIndirection := by omega
    rw [Declaration.Parser.stars]
    cases haccept : Declaration.Parser.accept? .star ws with
    | none =>
      obtain ⟨s', heat, hd, hat⟩ := eat_none h haccept
      refine ⟨s', loop_done ?_, hd, hat.behind⟩
      rw [starsRound, if_pos hlt, bind_ok heat]
      rfl
    | some t =>
      obtain ⟨w, rest, hshorter⟩ := t
      obtain ⟨s₁, heat, hd₁, hat₁⟩ := eat_some h haccept
      obtain ⟨s₂, hloop, hd₂, hbehind⟩ := ih (n := n + 1) hat₁.behind (by omega)
      have hround : starsRound i n s = some (.ok (.next (n + 1)), s₁) := by
        have hincrement : increment n s₁ = some (.ok (n + 1), s₁) := if_pos (by omega)
        rw [starsRound, if_pos hlt, bind_ok heat, if_pos rfl, bind_ok hincrement]
        rfl
      refine ⟨s₂, ?_, hd₂.trans hd₁, hbehind⟩
      rw [loop_next hround (next_lt h hat₁.behind hshorter) hat₁.next_le, hloop, Nat.add_assoc,
        Nat.add_comm 1]

/-- The constant mark in front of a type. -/
theorem optionalConst_eq (h : Behind i s ws) :
    ∃ s', eat i .constWord s = some (.ok (Declaration.Parser.optionalConst ws).value, s') ∧
      s'.depth = s.depth ∧ Behind i s' (Declaration.Parser.optionalConst ws).rest := by
  rw [Declaration.Parser.optionalConst]
  cases haccept : Declaration.Parser.accept? .constWord ws with
  | none =>
    obtain ⟨s', heat, hd, hat⟩ := eat_none h haccept
    exact ⟨s', heat, hd, hat.behind⟩
  | some t =>
    obtain ⟨w, rest, hlt⟩ := t
    obtain ⟨s', heat, hd, hat⟩ := eat_some h haccept
    exact ⟨s', heat, hd, hat.behind⟩

theorem baseType_agrees (hdepth : s.depth = depth) (h : Behind i s ws) :
    Agrees i depth (Same i) (Declaration.Parser.baseType i.dialect ws) (baseType i s) := by
  obtain ⟨s₁, hconst, hd₁, hbehind₁⟩ := optionalConst_eq h
  refine .call hdepth (.of_ok hconst ?_)
  refine (name_agrees (hd₁.trans hdepth) hbehind₁).bind ?_
  rintro n rest a s₂ hlt hd₂ ⟨hname, hbehind₂⟩
  obtain ⟨s₃, hstars, hd₃, hbehind₃⟩ := stars_eq hbehind₂ (Nat.zero_add _)
  refine .of_ok hstars ?_
  refine .taken (hd₃.trans hd₂) ⟨?_, hbehind₃⟩
  rw [hname, Nat.zero_add]
  rfl

/-! ## Arguments -/

/-- The name of a function pointer, behind a star and in parentheses. -/
def pointerName (i : Input) : Call String := call do
  let _ ← expect i .leftParen .leftParen
  let _ ← expect i .star .star
  let pointer ← name i .pointerName
  let _ ← expect i .rightParen .rightParen
  return pointer

/-- A round of the loop for arguments. -/
def argumentsRound (i : Input) (argument : Call Argument) (taken : List Argument) :
    Call (Step (List Argument) (List Argument)) := do
  let a ← argument
  if ← eat i .comma then return .next (a :: taken) else return .done (a :: taken).reverse

/-- Arguments in parentheses. -/
def argumentsOf (i : Input) (argument : Call Argument) : Call (List Argument) := call do
  let _ ← expect i .leftParen .leftParen
  if ← eat i .rightParen then return []
  else
    let arguments ← loop i (argumentsRound i argument) []
    let _ ← expect i .rightParen .argumentsEnd
    return arguments

/-- The base type of a callback, if a callback is in front.  If not, the cursor is set back. -/
def callbackType (i : Input) : Call (Option BaseType) := call do
  if i.dialect.allowsCallbacks then
    let start ← cursor
    match ← attempt (baseType i) with
    | .ok returns =>
      if (← upcoming i).take 2 = [.leftParen, .star] then return some returns
      else
        moveTo i start
        return none
    | .error _ =>
      moveTo i start
      return none
  else return none

/-- An argument of a base type. -/
def plainArgument (i : Input) : Call Argument := call do
  let type ← baseType i
  let name? ← optionalName i
  return .plain type name?

/-- What stands behind the base type of a callback. -/
def nestedFunction (i : Input) (argument : Call Argument) (returns : BaseType) : Call Argument :=
  call do
    let _ ← expect i .leftParen .leftParen
    let _ ← expect i .star .star
    let name? ← optionalName i
    let _ ← expect i .rightParen .rightParen
    let arguments ← argumentsOf i argument
    return .callback returns name? arguments

/-- A callback, which is counted while it is open. -/
def callback (i : Input) (argument : Call Argument) (returns : BaseType) : Call Argument := call do
  if (← openCallbacks) = maxNesting then throw (← errorHere i .shallower)
  else
    deeper
    let result ← attempt (nestedFunction i argument returns)
    shallower
    settle result

/-- An argument, where so many calls may be nested. -/
def argument (i : Input) : Nat → Call Argument
  | 0 => fun _ => none
  | levels + 1 => call do
    match ← callbackType i with
    | some returns => callback i (argument i levels) returns
    | none => plainArgument i

/-- The arguments of a function pointer. -/
def arguments (i : Input) : Call (List Argument) := argumentsOf i (argument i (maxNesting + 1))

/-- The arguments are the same, and the comments behind the closing parenthesis are in front. -/
def SameClosed (i : Input) (r : List Argument × Word) (rest : List Word) (as : List Argument)
    (s : State) : Prop :=
  as = r.1 ∧ At i s r.2.comments rest

theorem pointerName_agrees (hdepth : s.depth = depth) (h : Behind i s ws) :
    Agrees i depth (Same i) (Declaration.Parser.pointerName ws) (pointerName i s) := by
  refine .call hdepth ((expect_agrees hdepth h).bind ?_)
  rintro _ _ _ _ _ hd₁ ⟨_, hat₁⟩
  refine (expect_agrees hd₁ hat₁.behind).bind ?_
  rintro _ _ _ _ _ hd₂ ⟨_, hat₂⟩
  refine (name_agrees hd₂ hat₂.behind).bind ?_
  rintro _ _ _ _ _ hd₃ ⟨hname, hbehind₃⟩
  refine (expect_agrees hd₃ hbehind₃).bind ?_
  rintro _ _ _ _ _ hd₄ ⟨_, hat₄⟩
  exact .taken hd₄ ⟨hname, hat₄.behind⟩

section Arguments

variable {argument' : (ws : List Word) → Reading Argument ws} {argument : Call Argument}

theorem someArguments_agrees
    (hargument : ∀ {s ws}, s.depth = depth → Behind i s ws →
      Agrees i depth (Same i) (argument' ws) (argument s))
    (taken : List Argument) (hdepth : s.depth = depth) (h : Behind i s ws) :
    Agrees i depth (fun r rest as s => as = taken.reverse ++ r.1 ∧ At i s r.2.comments rest)
      (Declaration.Parser.someArguments argument' ws)
      ((loop i (argumentsRound i argument) taken >>= fun as => do
        let _ ← expect i .rightParen .argumentsEnd
        return as) s) := by
  induction hlen : ws.length using Nat.strongRecOn generalizing s ws taken with
  | ind n ih =>
  refine .of_round ?_
  rw [Declaration.Parser.someArguments, argumentsRound, bind_assoc]
  refine (hargument hdepth h).bind ?_
  rintro first ws₁ a s₁ hlt hd₁ ⟨rfl, h₁⟩
  rw [bind_assoc]
  dsimp only
  cases haccept : Declaration.Parser.accept? .comma ws₁ with
  | none =>
    obtain ⟨s₂, heat, hd₂, hat₂⟩ := eat_none h₁ haccept
    refine .of_ok heat ?_
    rw [if_neg Bool.false_ne_true, pure_bind, again_done]
    refine (expect_agrees (hd₂.trans hd₁) hat₂.behind).bind ?_
    rintro _ _ _ _ _ hd₃ ⟨_, hat₃⟩
    exact .taken hd₃ ⟨List.reverse_cons, hat₃⟩
  | some t =>
    obtain ⟨comma, behind, hshorter⟩ := t
    obtain ⟨s₂, heat, hd₂, hat₂⟩ := eat_some h₁ haccept
    have hmoved := next_lt h hat₂.behind (Nat.lt_trans hshorter hlt)
    refine .of_ok heat ?_
    rw [if_pos rfl, pure_bind, again_next hmoved hat₂.next_le]
    refine (ih _ (by omega) (a :: taken) (hd₂.trans hd₁) hat₂.behind rfl).map fun hlt₃ => ?_
    refine ⟨_, _, rfl, ?_⟩
    rintro _ _ ⟨has, hat₃⟩
    refine ⟨?_, hat₃⟩
    rw [has, List.reverse_cons, List.append_assoc]
    rfl

theorem argumentsOf_agrees
    (hargument : ∀ {s ws}, s.depth = depth → Behind i s ws →
      Agrees i depth (Same i) (argument' ws) (argument s))
    (hdepth : s.depth = depth) (h : Behind i s ws) :
    Agrees i depth (SameClosed i) (Declaration.Parser.argumentsOf argument' ws)
      (argumentsOf i argument s) := by
  refine .call hdepth ((expect_agrees hdepth h).bind ?_)
  rintro _ ws₁ _ s₁ hlt₁ hd₁ ⟨_, hat₁⟩
  dsimp only
  cases haccept : Declaration.Parser.accept? .rightParen ws₁ with
  | none =>
    obtain ⟨s₂, heat, hd₂, hat₂⟩ := eat_none hat₁.behind haccept
    refine .of_ok heat ?_
    refine (someArguments_agrees hargument [] (hd₂.trans hd₁) hat₂.behind).map fun hlt₃ => ?_
    exact ⟨_, _, rfl, fun has => has⟩
  | some t =>
    obtain ⟨w, rest, hlt⟩ := t
    obtain ⟨s₂, heat, hd₂, hat₂⟩ := eat_some hat₁.behind haccept
    exact .of_ok heat (.taken (hd₂.trans hd₁) ⟨rfl, hat₂⟩)

end Arguments

/-! ### Callbacks -/

/-- A parenthesis and a star are the next two words. -/
theorem take_kinds (ws : List Word) :
    (ws.map Word.kind).take 2 = [.leftParen, .star] ↔
      Declaration.Parser.startsCallback ws = true := by
  cases ws with
  | nil => simp [Declaration.Parser.startsCallback]
  | cons w ws =>
    cases ws with
    | nil => simp [Declaration.Parser.startsCallback]
    | cons w' ws => simp [Declaration.Parser.startsCallback]

/-- The cursor is set back. -/
theorem moveTo_back {s₁ : State} (h : Behind i s ws) (hd : s₁.depth = s.depth) :
    moveTo i s.next s₁ = some (.ok (), s) := by
  obtain ⟨_, hle, _⟩ := h
  rw [moveTo_eq hle, hd]

theorem callbackType_of_error {s₁ : State} {e : Error} (h : Behind i s ws)
    (hp : baseType i s = some (.error e, s₁)) (hd : s₁.depth = s.depth) :
    callbackType i s = some (.ok none, s) := by
  refine call_of_depth ?_ rfl
  split
  · rw [bind_ok rfl, bind_ok (attempt_eq hp)]
    dsimp only
    rw [bind_ok (moveTo_back h hd)]
    rfl
  · rfl

theorem callbackType_of_ok {s₁ : State} {type : BaseType} (h : Behind i s ws)
    (hp : baseType i s = some (.ok type, s₁)) (hd : s₁.depth = s.depth) (h₁ : Behind i s₁ rest) :
    callbackType i s =
      if i.dialect.allowsCallbacks && Declaration.Parser.startsCallback rest then
        some (.ok (some type), s₁)
      else some (.ok none, s) := by
  cases hallows : i.dialect.allowsCallbacks with
  | false =>
    refine call_of_depth ?_ rfl
    rw [hallows]
    rfl
  | true =>
    rw [Bool.true_and]
    cases hstarts : Declaration.Parser.startsCallback rest with
    | true =>
      refine call_of_depth ?_ hd
      rw [hallows, if_pos rfl, bind_ok rfl, bind_ok (attempt_eq hp)]
      dsimp only
      rw [bind_ok (upcoming_eq h₁), if_pos ((take_kinds rest).mpr hstarts)]
      rfl
    | false =>
      have hno := mt (take_kinds rest).mp (Bool.eq_false_iff.mp hstarts)
      refine call_of_depth ?_ rfl
      rw [hallows, if_pos rfl, bind_ok rfl, bind_ok (attempt_eq hp)]
      dsimp only
      rw [bind_ok (upcoming_eq h₁), if_neg hno, bind_ok (moveTo_back h hd)]
      rfl

/-- What is read while one more callback is open. -/
theorem Agrees.nested {β : Type} {r : Reading β ws} {p : Call β} (hdepth : s.depth = depth)
    (hlt : depth < maxNesting)
    (h : Agrees i (depth + 1) (Same i) r (p { s with depth := depth + 1 })) :
    Agrees i depth (Same i) r ((do
      deeper
      let result ← attempt p
      shallower
      settle result) s) := by
  have hdeeper : deeper s = some (.ok (), { s with depth := depth + 1 }) := by
    rw [deeper, hdepth]
    exact if_pos hlt
  have hshallower : ∀ {s' : State}, s'.depth = depth + 1 →
      shallower s' = some (.ok (), { s' with depth := depth }) := by
    intro s' hd
    rw [shallower, hd]
    exact if_pos (Nat.le_add_left 1 depth)
  refine .of_ok hdeeper ?_
  generalize hp : p { s with depth := depth + 1 } = result at h
  cases h with
  | stuck hd hle =>
    rw [bind_ok (attempt_eq hp), bind_ok (hshallower hd)]
    exact .stuck rfl hle
  | taken hd hsame =>
    obtain ⟨rfl, leading, hle, hwords⟩ := hsame
    rw [bind_ok (attempt_eq hp), bind_ok (hshallower hd)]
    exact .taken rfl ⟨rfl, leading, hle, hwords⟩

/-- An argument is read as it is of words.  It is tried as a callback first, and where that is given
up, the error comes again from the argument of a base type.  No levels are left exactly where the
count has come to its limit. -/
theorem argument_agrees {depth n : Nat} {s : State} {ws : List Word} (hn : depth + n = maxNesting)
    (hdepth : s.depth = depth) (h : Behind i s ws) :
    Agrees i depth (Same i) (Declaration.Parser.argument i.dialect n ws)
      (argument i (n + 1) s) := by
  have hbase := baseType_agrees hdepth h
  refine .call hdepth ?_
  rw [Declaration.Parser.argument.eq_def]
  generalize Declaration.Parser.baseType i.dialect ws = reading at hbase
  generalize hp : baseType i s = result at hbase
  cases hbase with
  | stuck hd hle =>
    rw [bind_ok (callbackType_of_error h hp (hd.trans hdepth.symm))]
    refine .call hdepth ?_
    rw [bind_error hp]
    exact .stuck hd hle
  | @taken type rest hlt a s₁ hd₁ hsame =>
    obtain ⟨rfl, h₁⟩ := hsame
    have hcallback := callbackType_of_ok h hp (hd₁.trans hdepth.symm) h₁
    refine .ok_bind ?_
    dsimp only
    cases hstarts : i.dialect.allowsCallbacks && Declaration.Parser.startsCallback rest with
    | false =>
      rw [hstarts, if_neg Bool.false_ne_true] at hcallback
      obtain ⟨s₂, hname, hd₂, h₂⟩ := optionalName_eq h₁
      rw [bind_ok hcallback, if_neg Bool.false_ne_true]
      refine .call hdepth ?_
      rw [bind_ok hp, bind_ok hname]
      exact .taken (hd₂.trans hd₁) ⟨rfl, h₂⟩
    | true =>
      rw [hstarts, if_pos rfl] at hcallback
      rw [bind_ok hcallback, if_pos rfl]
      refine .call hd₁ (.of_ok rfl ?_)
      cases n with
      | zero =>
        rw [if_pos (hd₁.trans hn)]
        exact agrees_error hd₁ h₁ fun _ _ => rfl
      | succ n =>
        have hlt : depth < maxNesting := by omega
        have hdeeper : depth + 1 + n = maxNesting := by omega
        rw [if_neg (by omega)]
        refine .nested hd₁ hlt (.call rfl ?_)
        obtain ⟨leading, hle, hwords⟩ := h₁
        have h₁ : Behind i { s₁ with depth := depth + 1 } rest := ⟨leading, hle, hwords⟩
        refine (expect_agrees rfl h₁).bind ?_
        rintro _ _ _ _ _ hd₂ ⟨_, hat₂⟩
        refine (expect_agrees hd₂ hat₂.behind).bind ?_
        rintro _ _ _ _ _ hd₃ ⟨_, hat₃⟩
        obtain ⟨s₄, hname, hd₄, h₄⟩ := optionalName_eq hat₃.behind
        refine .of_ok hname ?_
        refine (expect_agrees (hd₄.trans hd₃) h₄).bind ?_
        rintro _ _ _ _ _ hd₅ ⟨_, hat₅⟩
        refine (argumentsOf_agrees (argument_agrees hdeeper) hd₅ hat₅.behind).bind ?_
        rintro _ _ _ _ _ hd₆ ⟨has, hat₆⟩
        exact .taken hd₆ ⟨congrArg _ has, hat₆.behind⟩

theorem arguments_agrees (hdepth : s.depth = 0) (h : Behind i s ws) :
    Agrees i 0 (SameClosed i) (Declaration.Parser.arguments i.dialect ws) (arguments i s) :=
  argumentsOf_agrees (argument_agrees (Nat.zero_add _)) hdepth h

end EngineHeader.Checked.Parser
