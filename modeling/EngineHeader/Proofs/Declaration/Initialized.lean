import EngineHeader.Proofs.Declaration.Completion
import EngineHeader.Proofs.Declaration.Numeral
import EngineHeader.Proofs.Declaration.Recognition

/-!
# What enumerators are set to

Behind the equals sign of an enumerator stands what it is set to.  In front of that are declarations
and the part of an enumeration that was read already (`SetsEnumerator`).  They are read in one way
whatever follows, and what stands behind is read in one way whatever the enumerator is set to
(`ofWords_append_initializer`).  So the place only decides the value.  It is stored, or it is an
error there (`ofText_integer`).

Readings are compared by what they give and leave (`outcome`).  An error that is met behind the value
points behind it, since a reading only gets stuck at words that it was given (`Leaves`).
-/

namespace EngineHeader

namespace Declaration.Grammar

/-- An enumerator and the comma behind it. -/
inductive EnumeratorAndComma : List Token → Enumerator → Prop where
  | mk {ts : List Token} {c : Token} {e : Enumerator} : EnumeratorOf ts e → c.kind = .comma →
    EnumeratorAndComma (ts ++ [c]) e

/-- Behind these tokens stands what an enumerator is set to.  They are declarations, and an
enumeration through the equals sign of one of its enumerators. -/
inductive SetsEnumerator (d : Dialect) :
    List Token → List Declaration → List Enumerator → String → Prop where
  | mk {ts us : List Token} {word enum l name equals : Token} {ds : List Declaration}
      {es : List Enumerator} :
    Many (DeclarationOf d) ts ds → word.kind = .typedefWord → enum.kind = .enumWord →
    l.kind = .leftBrace → Many EnumeratorAndComma us es → name.kind = .identifier →
    equals.kind = .equals →
    SetsEnumerator d (ts ++ word :: enum :: l :: (us ++ [name, equals])) ds es name.text

end Declaration.Grammar

namespace Declaration.Parser

open Grammar
open Token (Kind Word Words)

variable {α β : Type} {d : Dialect} {ws us rest : List Word} {w : Word}

/-! ## What a reading gives and leaves -/

/-- What a reading gives, and the words that it leaves. -/
def outcome (r : Reading α ws) : Except Stuck (α × List Word) := r.map fun t => (t.value, t.rest)

theorem Yields.outcome_eq {r : Reading α ws} {a : α} (h : Yields r a rest) :
    outcome r = .ok (a, rest) := by
  obtain ⟨_, rfl⟩ := h
  rfl

theorem yields_of_outcome {r : Reading α ws} {a : α} (h : outcome r = .ok (a, rest)) :
    Yields r a rest := by
  cases r with
  | error s => cases h
  | ok t =>
    cases h
    exact ⟨t.shorter, rfl⟩

/-- One reading behind another one only depends on what that gives and leaves. -/
theorem outcome_bind (r : Reading α us) {f : Taken α us → Reading β ws}
    {g : α × List Word → Except Stuck (β × List Word)}
    (h : ∀ t, outcome (f t) = g (t.value, t.rest)) : outcome (r >>= f) = outcome r >>= g := by
  cases r with
  | error s => rfl
  | ok t => exact h t

/-- A reading that is followed by none only has its result changed. -/
theorem outcome_map (r : Reading α us) {f : Taken α us → Reading β ws}
    {g : α × List Word → β × List Word}
    (h : ∀ t, outcome (f t) = .ok (g (t.value, t.rest))) :
    outcome (r >>= f) = (outcome r).map g := by
  cases r with
  | error s => rfl
  | ok t => exact h t

/-- Behind a reading that comes through only the other one matters. -/
theorem Yields.outcome_bind {r : Reading α us} {f : Taken α us → Reading β ws} {a : α}
    {mid : List Word} {o : Except Stuck (β × List Word)} (hr : Yields r a mid)
    (h : ∀ h : mid.length < us.length, outcome (f ⟨a, mid, h⟩) = o) :
    outcome (r >>= f) = o := by
  obtain ⟨hshorter, rfl⟩ := hr
  exact h hshorter

/-! ## Enumerators -/

/-- The enumerators behind one that was read, and what they leave. -/
def laterEnumerators (ws : List Word) : Except Stuck (List Enumerator × List Word) :=
  match accept? .comma ws with
  | some ⟨_, ws₁, _⟩ => outcome (enumerators ws₁)
  | none => (outcome (expect .rightBrace .enumeratorsEnd ws)).map fun r => ([], r.2)

theorem outcome_enumerators (hopen : startsWith .rightBrace ws = false) :
    outcome (enumerators ws) = outcome (enumerator ws) >>= fun r =>
      (laterEnumerators r.2).map fun later => (r.1 :: later.1, later.2) := by
  rw [enumerators, accept?_eq_none hopen]
  refine outcome_bind _ fun t => ?_
  obtain ⟨first, ws₁, h₁⟩ := t
  dsimp only [laterEnumerators]
  cases accept? .comma ws₁ with
  | some t =>
    obtain ⟨c, ws₂, h₂⟩ := t
    exact outcome_map (enumerators ws₂) fun _ => rfl
  | none =>
    dsimp only
    cases expect .rightBrace .enumeratorsEnd ws₁ with
    | error s => rfl
    | ok t => rfl

/-- Enumerators with commas are read in front of others. -/
theorem outcome_enumerators_append {es : List Enumerator}
    (h : Many EnumeratorAndComma (us.map Word.token) es) (ws : List Word) :
    outcome (enumerators (us ++ ws)) =
      (outcome (enumerators ws)).map fun r => (es ++ r.1, r.2) := by
  generalize hts : us.map Word.token = ts at h
  induction h generalizing us with
  | none =>
    obtain rfl := List.map_eq_nil_iff.mp hts
    rw [List.nil_append]
    cases outcome (enumerators ws) with
    | error s => rfl
    | ok r => rfl
  | more he _ ih =>
    obtain ⟨front, others, rfl, hfront, hothers⟩ := List.map_eq_append_iff.mp hts
    obtain ⟨he, hc⟩ := he
    obtain ⟨first, last, rfl, rfl, hlast⟩ := List.map_eq_append_iff.mp hfront
    obtain ⟨c, rfl, rfl⟩ := List.map_eq_singleton_iff.mp hlast
    have hopen : startsWith .rightBrace (first ++ c :: (others ++ ws)) = false :=
      (EnumeratorOf.startsType he).startsWith_eq_false (by decide) (by decide) _
    have hbehind : startsWith .equals (c :: (others ++ ws)) = false :=
      startsWith_eq_false hc (by decide)
    have hfirst := enumerator_complete he hbehind
    rw [List.append_assoc, List.append_assoc, List.singleton_append, outcome_enumerators hopen,
      hfirst.outcome_eq]
    change (laterEnumerators (c :: (others ++ ws))).map _ = _
    rw [laterEnumerators, accept?_cons hc]
    dsimp only
    rw [ih hothers]
    cases outcome (enumerators ws) with
    | error s => rfl
    | ok r => rfl

theorem outcome_enumerator {name equals : Word} (hname : name.kind = .identifier)
    (hequals : equals.kind = .equals) (ws : List Word) :
    outcome (enumerator (name :: equals :: ws)) =
      (outcome (initializer ws)).map fun r => (⟨name.text, r.1⟩, r.2) := by
  rw [enumerator]
  refine (yields_name hname).outcome_bind fun _ => ?_
  dsimp only
  rw [accept?_cons hequals]
  exact outcome_map (initializer ws) fun _ => rfl

/-! ## Declarations -/

theorem outcome_enumeration {l : Word} (hl : l.kind = .leftBrace) (ws : List Word) :
    outcome (enumeration (l :: ws)) = (outcome (enumerators ws)).map fun r =>
      (⟨r.1, (optionalName r.2).value⟩, (optionalName r.2).rest) := by
  rw [enumeration]
  exact (yields_expect hl).outcome_bind fun _ => outcome_map (enumerators ws) fun _ => rfl

theorem outcome_declared {enum : Word} (henum : enum.kind = .enumWord) (ws : List Word) :
    outcome (declared d (enum :: ws)) =
      (outcome (enumeration ws)).map fun r => (.enumeration r.1, r.2) := by
  rw [declared, accept?_cons henum]
  exact outcome_map (enumeration ws) fun _ => rfl

theorem outcome_declaration {word : Word} (hword : word.kind = .typedefWord) (ws : List Word) :
    outcome (declaration d (word :: ws)) = outcome (declared d ws) >>= fun r =>
      (outcome (expect .semicolon .semicolon r.2)).map fun semicolon =>
        ((r.1, semicolon.1), semicolon.2) := by
  rw [declaration]
  refine (yields_expect hword).outcome_bind fun _ => outcome_bind (declared d ws) fun t => ?_
  exact outcome_map (expect .semicolon .semicolon t.rest) fun _ => rfl

theorem declarationsFrom_cons (taken : List Declaration) (w : Word) (ws : List Word) :
    declarationsFrom d taken (w :: ws) = outcome (declaration d (w :: ws)) >>= fun r =>
      declarationsFrom d ((comments r.1.2.comments).reverse ++ r.1.1 :: taken) r.2 := by
  rw [declarationsFrom]
  cases declaration d (w :: ws) with
  | error s => rfl
  | ok t => rfl

/-- What was taken already goes in front, and nothing else depends on it.  The induction is on the
number of words, for whatever was taken, so it can be used behind the first declaration on both
sides. -/
theorem declarationsFrom_eq (taken : List Declaration) (ws : List Word) :
    declarationsFrom d taken ws = (declarationsFrom d [] ws).map (taken.reverse ++ ·) := by
  induction hlen : ws.length using Nat.strongRecOn generalizing ws taken with
  | ind n ih =>
  cases ws with
  | nil =>
    rw [declarationsFrom_nil, declarationsFrom_nil]
    exact congrArg _ (List.append_nil _).symm
  | cons w ws =>
    rw [declarationsFrom_cons, declarationsFrom_cons]
    cases hread : outcome (declaration d (w :: ws)) with
    | error s => rfl
    | ok r =>
      have hshorter := (yields_of_outcome hread).shorter
      change declarationsFrom d _ r.2 = (declarationsFrom d _ r.2).map _
      rw [ih _ (hlen ▸ hshorter) _ _ rfl,
        ih _ (hlen ▸ hshorter) ((comments r.1.2.comments).reverse ++ [r.1.1]) _ rfl]
      cases declarationsFrom d [] r.2 with
      | error s => rfl
      | ok ds => exact congrArg Except.ok (by simp)

/-- What stands behind the value of an enumerator: more enumerators, the name of the enumeration,
and what else is declared. -/
def remainder (d : Dialect) (ws : List Word) :
    Except Stuck (List Enumerator × Option String × List Declaration) := do
  let (later, ws₁) ← laterEnumerators ws
  let (semicolon, ws₂) ← outcome (expect .semicolon .semicolon (optionalName ws₁).rest)
  let others ← declarationsFrom d [] ws₂
  return (later, (optionalName ws₁).value, comments semicolon.comments ++ others)

/-- An enumeration is read through one of its enumerators and then behind that. -/
theorem declarationsFrom_enumeration {word enum l name equals : Word} {us : List Word}
    {es : List Enumerator} (hword : word.kind = .typedefWord) (henum : enum.kind = .enumWord)
    (hl : l.kind = .leftBrace) (hes : Many EnumeratorAndComma (us.map Word.token) es)
    (hname : name.kind = .identifier) (hequals : equals.kind = .equals)
    (taken : List Declaration) (ws : List Word) :
    declarationsFrom d taken (word :: enum :: l :: (us ++ name :: equals :: ws)) =
      outcome (initializer ws) >>= fun r => (remainder d r.2).map fun behind =>
        taken.reverse ++
          .enumeration ⟨es ++ ⟨name.text, r.1⟩ :: behind.1, behind.2.1⟩ :: behind.2.2 := by
  have hopen : startsWith .rightBrace (name :: equals :: ws) = false :=
    startsWith_eq_false hname (by decide)
  rw [declarationsFrom_cons, outcome_declaration hword, outcome_declared henum,
    outcome_enumeration hl, outcome_enumerators_append hes, outcome_enumerators hopen,
    outcome_enumerator hname hequals]
  cases outcome (initializer ws) with
  | error s => rfl
  | ok r =>
    obtain ⟨value, ws₁⟩ := r
    dsimp only [bind, Except.bind, Except.map, remainder]
    cases laterEnumerators ws₁ with
    | error s => rfl
    | ok later =>
      dsimp only
      cases outcome (expect .semicolon .semicolon (optionalName later.2).rest) with
      | error s => rfl
      | ok semicolon =>
        dsimp only
        rw [declarationsFrom_eq]
        cases declarationsFrom d [] semicolon.2 with
        | error s => rfl
        | ok others => exact congrArg Except.ok (by simp)

/-- Words in front of what an enumerator is set to are read in one way.  Then the value is read, and
then what is behind it, where the value does not matter. -/
theorem ofWords_append_initializer {front : List Word} {ds : List Declaration}
    {es : List Enumerator} {name : String}
    (h : SetsEnumerator d (front.map Word.token) ds es name) (leading : List Token)
    (ws : List Word) :
    ∃ before, before.filterMap withoutComments? = ds ∧
      ofWords d ⟨leading, front ++ ws⟩ = outcome (initializer ws) >>= fun r =>
        (remainder d r.2).map fun behind =>
          before ++ .enumeration ⟨es ++ ⟨name, r.1⟩ :: behind.1, behind.2.1⟩ :: behind.2.2 := by
  generalize hts : front.map Word.token = ts at h
  obtain ⟨hds, hword, henum, hl, hes, hname, hequals⟩ := h
  obtain ⟨before, ws₁, rfl, rfl, h₁⟩ := List.map_eq_append_iff.mp hts
  obtain ⟨word, ws₂, rfl, rfl, h₂⟩ := List.map_eq_cons_iff.mp h₁
  obtain ⟨enum, ws₃, rfl, rfl, h₃⟩ := List.map_eq_cons_iff.mp h₂
  obtain ⟨l, ws₄, rfl, rfl, h₄⟩ := List.map_eq_cons_iff.mp h₃
  obtain ⟨inside, ws₅, rfl, rfl, h₅⟩ := List.map_eq_append_iff.mp h₄
  obtain ⟨name, ws₆, rfl, rfl, h₆⟩ := List.map_eq_cons_iff.mp h₅
  obtain ⟨equals, rfl, rfl⟩ := List.map_eq_singleton_iff.mp h₆
  obtain ⟨new, rfl, hnew⟩ := declarationsFrom_complete hds (comments leading).reverse
    (word :: enum :: l :: (inside ++ name :: equals :: ws))
  refine ⟨comments leading ++ new, ?_, ?_⟩
  · rw [List.filterMap_append, filterMap_comments, List.nil_append]
  · have hread := declarationsFrom_enumeration (d := d) hword henum hl hes hname hequals
      (new.reverse ++ (comments leading).reverse) ws
    rw [List.reverse_append, List.reverse_reverse, List.reverse_reverse] at hread
    refine Eq.trans ?_ hread
    rw [← hnew, ofWords]
    simp

/-! ## What is left -/

/-- What is left of the words, or what an error points at, is at their end. -/
def Leaves (ws : List Word) : Except Stuck (α × List Word) → Prop
  | .error s => s.rest <:+ ws
  | .ok r => r.2 <:+ ws

theorem Leaves.behind {o : Except Stuck (α × List Word)} (h : Leaves rest o) (hr : rest <:+ ws) :
    Leaves ws o := by
  cases o with
  | error s => exact List.IsSuffix.trans h hr
  | ok r => exact List.IsSuffix.trans h hr

theorem Leaves.map {o : Except Stuck (α × List Word)} {f : α × List Word → β × List Word}
    (h : Leaves ws o) (hf : ∀ r, (f r).2 = r.2) : Leaves ws (o.map f) := by
  cases o with
  | error s => exact h
  | ok r =>
    change (f r).2 <:+ ws
    rw [hf r]
    exact h

/-- An error comes from what is done first, or from what is done with the words that it leaves. -/
theorem Leaves.of_bind {o : Except Stuck (α × List Word)} {f : α × List Word → Except Stuck β}
    {s : Stuck} (ho : Leaves ws o) (h : o >>= f = .error s)
    (hf : ∀ r, r.2 <:+ ws → f r = .error s → s.rest <:+ ws) : s.rest <:+ ws := by
  cases o with
  | error s' =>
    cases h
    exact ho
  | ok r => exact hf r ho h

theorem expect_leaves (kind : Kind) (expected : Expected) (ws : List Word) :
    Leaves ws (outcome (expect kind expected ws)) := by
  cases ws with
  | nil => exact List.suffix_rfl
  | cons w ws =>
    rw [expect]
    split
    · exact List.suffix_cons w ws
    · exact List.suffix_rfl

theorem Viable.suffix {P : List Token → Prop} {read : List Token} {r : Except Stuck α} {s : Stuck}
    (h : Viable P read ws r) (hr : r = .error s) : s.rest <:+ ws := by
  obtain ⟨front, rfl, _⟩ := h s hr
  exact List.suffix_append front s.rest

theorem enumerators_leaves (ws : List Word) : Leaves ws (outcome (enumerators ws)) := by
  cases hread : enumerators ws with
  | error s => exact (enumerators_viable ws).suffix hread
  | ok t =>
    have hyields : Yields (enumerators ws) t.value t.rest := ⟨t.shorter, hread⟩
    obtain ⟨front, close, heq, _⟩ := enumerators_sound hyields
    exact ⟨front ++ [close], (List.append_cons front close t.rest ▸ heq).symm⟩

theorem laterEnumerators_leaves (ws : List Word) : Leaves ws (laterEnumerators ws) := by
  rw [laterEnumerators]
  split
  · next comma ws₁ _ heq =>
    obtain ⟨rfl, _⟩ := accept?_eq_some heq
    exact (enumerators_leaves ws₁).behind (List.suffix_cons comma ws₁)
  · exact (expect_leaves .rightBrace .enumeratorsEnd ws).map fun _ => rfl

/-- Where the words behind a value get stuck, the error is among them. -/
theorem remainder_suffix {s : Stuck} (h : remainder d ws = .error s) : s.rest <:+ ws := by
  refine (laterEnumerators_leaves ws).of_bind h fun later hlater h => ?_
  obtain ⟨front, hws, _⟩ := optionalName_sound later.2
  have hname : (optionalName later.2).rest <:+ ws := List.IsSuffix.trans ⟨front, hws.symm⟩ hlater
  have hsemi := (expect_leaves .semicolon .semicolon (optionalName later.2).rest).behind hname
  refine hsemi.of_bind h fun semicolon hrest h => ?_
  cases hothers : declarationsFrom d [] semicolon.2 with
  | error s' =>
    dsimp only at h
    rw [hothers] at h
    cases h
    exact ((declarationsFrom_viable [] semicolon.2).suffix hothers).trans hrest
  | ok others =>
    dsimp only at h
    rw [hothers] at h
    cases h

/-! ## The value -/

theorem outcome_initializer {value : Initializer} (h : InitializerOf w.token value)
    (ws : List Word) : outcome (initializer (w :: ws)) = .ok (value, ws) :=
  (initializer_complete h ws).outcome_eq

theorem outcome_initializer_error (hk : w.kind = .integer)
    (hlarge : Literal.isRepresentable (Literal.value w.text.toList) = false) (ws : List Word) :
    outcome (initializer (w :: ws)) = .error ⟨w :: ws, .representable⟩ := by
  rw [initializer, if_pos hk]
  dsimp only
  rw [hlarge]
  rfl

end Declaration.Parser

namespace Header

open Declaration Declaration.Grammar Declaration.Parser
open Token (scanText significant Word Words)

variable {d : Dialect} {source : String} {front behind : List Token} {t : Token}
  {ds : List Declaration} {es : List Enumerator} {name : String} {value : Initializer}

/-- The value of an enumerator is stored, unless something is wrong behind it. -/
structure Stores (d : Dialect) (source : String) (front behind : List Token)
    (ds : List Declaration) (es : List Enumerator) (e : Enumerator) : Prop where
  /-- The text is a header exactly if it is one with some name in place of the value. -/
  ok_iff : ∀ x : Token, x.kind = .identifier →
    ((∃ h, ofText d source = .ok h) ↔ ∃ tree, Derives d (front ++ x :: behind) tree)
  /-- In the header, the enumerator is behind those in front of it. -/
  stored : ∀ h, ofText d source = .ok h → ∃ later name? others,
    h.withoutComments.declarations = ds ++ .enumeration ⟨es ++ e :: later, name?⟩ :: others
  /-- Otherwise an error points behind the value. -/
  error_behind : ∀ fault, ofText d source = .error fault → ∃ found expected,
    fault = .grammar found expected ∧
      (found ∈ behind ∨ found = .atEnd (Position.start.advance source.toList))

/-- The words of a text are split as its tokens are. -/
theorem exists_words {tokens : List Token} (h : significant tokens = front ++ t :: behind) :
    ∃ us w ws, Words.ofTokens tokens = ⟨(Words.ofTokens tokens).leading, us ++ w :: ws⟩ ∧
      us.map Word.token = front ∧ w.token = t ∧ ws.map Word.token = behind := by
  rw [← Words.map_token_ofTokens] at h
  obtain ⟨us, vs, hwords, hus, hvs⟩ := List.map_eq_append_iff.mp h
  obtain ⟨w, ws, rfl, hw, hws⟩ := List.map_eq_cons_iff.mp hvs
  exact ⟨us, w, ws, by rw [← hwords], hus, hw, hws⟩

/-- What is read is what stands behind the value, with the value in front. -/
theorem ofWords_eq_of_initializer {us : List Word} {w : Word}
    (hplace : SetsEnumerator d (us.map Word.token) ds es name) (hvalue : InitializerOf w.token value)
    (leading : List Token) (ws : List Word) :
    ∃ before, before.filterMap withoutComments? = ds ∧
      ofWords d ⟨leading, us ++ w :: ws⟩ = (remainder d ws).map fun behind =>
        before ++ .enumeration ⟨es ++ ⟨name, value⟩ :: behind.1, behind.2.1⟩ :: behind.2.2 := by
  obtain ⟨before, hbefore, heq⟩ := ofWords_append_initializer hplace leading (w :: ws)
  rw [outcome_initializer hvalue] at heq
  exact ⟨before, hbefore, heq⟩

theorem ofWords_ok_iff {us ws : List Word} {w : Word}
    (hplace : SetsEnumerator d (us.map Word.token) ds es name) (hvalue : InitializerOf w.token value)
    (leading : List Token) :
    (∃ all, ofWords d ⟨leading, us ++ w :: ws⟩ = .ok all) ↔ ∃ r, remainder d ws = .ok r := by
  obtain ⟨before, _, heq⟩ := ofWords_eq_of_initializer hplace hvalue leading ws
  rw [heq]
  cases remainder d ws with
  | error s => simp [Except.map]
  | ok r => simp [Except.map]

theorem exists_derives_iff {words : Words} :
    (∃ tree, Derives d (words.words.map Word.token) tree) ↔ ∃ ds, ofWords d words = .ok ds := by
  constructor
  · rintro ⟨tree, htree⟩
    obtain ⟨ds, hds, _⟩ := ofWords_complete words htree
    exact ⟨ds, hds⟩
  · rintro ⟨ds, hds⟩
    exact ⟨_, ofWords_sound hds⟩

/-- A token that is behind, or the end of the text. -/
theorem found_of_suffix {stuck : Stuck} {ws : List Word} (h : stuck.rest <:+ ws) (p : Position) :
    stuck.found p ∈ ws.map Word.token ∨ stuck.found p = .atEnd p := by
  rw [Stuck.found]
  cases hrest : stuck.rest with
  | nil => exact .inr rfl
  | cons w rest =>
    have hw : w ∈ ws := h.subset (hrest ▸ List.mem_cons_self)
    exact .inl (List.mem_map_of_mem hw)

theorem stores_of_initializer (hs : (scanText source).error? = none)
    (htokens : significant (scanText source).items = front ++ t :: behind)
    (hplace : SetsEnumerator d front ds es name) (hvalue : InitializerOf t value) :
    Stores d source front behind ds es ⟨name, value⟩ := by
  obtain ⟨us, w, ws, hwords, rfl, rfl, rfl⟩ := exists_words htokens
  generalize (Words.ofTokens (scanText source).items).leading = leading at hwords
  obtain ⟨before, rfl, heq⟩ := ofWords_eq_of_initializer hplace hvalue leading ws
  constructor
  case ok_iff =>
    intro x hx
    have hname : (us ++ ⟨x, []⟩ :: ws).map Word.token =
        us.map Word.token ++ x :: ws.map Word.token := by simp
    calc (∃ h, ofText d source = .ok h)
        ↔ ∃ all, ofWords d ⟨leading, us ++ w :: ws⟩ = .ok all := by
          simp only [ofText_eq_ok_iff, hs, hwords, true_and]
          exact ⟨fun ⟨h, hall⟩ => ⟨h.declarations, hall⟩, fun ⟨all, hall⟩ => ⟨⟨all⟩, hall⟩⟩
      _ ↔ ∃ r, remainder d ws = .ok r := ofWords_ok_iff hplace hvalue leading
      _ ↔ ∃ all, ofWords d ⟨leading, us ++ ⟨x, []⟩ :: ws⟩ = .ok all :=
          (ofWords_ok_iff hplace (.reference hx) leading).symm
      _ ↔ ∃ tree, Derives d (us.map Word.token ++ x :: ws.map Word.token) tree := by
          rw [← hname]
          exact exists_derives_iff.symm
  case stored =>
    intro h hok
    have hall := (ofText_eq_ok_iff.mp hok).2
    rw [hwords, heq] at hall
    cases hr : remainder d ws with
    | error s =>
      rw [hr] at hall
      cases hall
    | ok r =>
      rw [hr] at hall
      obtain ⟨later, name?, others⟩ := r
      refine ⟨later, name?, others.filterMap withoutComments?, ?_⟩
      rw [Header.withoutComments, ← Except.ok.inj hall, List.filterMap_append]
      rfl
  case error_behind =>
    intro fault herror
    rw [ofText_of_scanned hs, hwords, heq] at herror
    cases hr : remainder d ws with
    | error stuck =>
      rw [hr] at herror
      cases herror
      exact ⟨_, _, rfl, found_of_suffix (remainder_suffix hr) _⟩
    | ok r =>
      rw [hr] at herror
      cases herror

/-- A number that is too large is an error where it stands. -/
theorem ofText_error_of_large (hs : (scanText source).error? = none)
    (htokens : significant (scanText source).items = front ++ t :: behind)
    (hplace : SetsEnumerator d front ds es name) (hk : t.kind = .integer)
    (hlarge : Literal.isRepresentable (Literal.value t.text.toList) = false) :
    ofText d source = .error (.grammar t .representable) := by
  obtain ⟨us, w, ws, hwords, rfl, rfl, rfl⟩ := exists_words htokens
  obtain ⟨_, _, heq⟩ := ofWords_append_initializer hplace
    (Words.ofTokens (scanText source).items).leading (w :: ws)
  rw [outcome_initializer_error hk hlarge] at heq
  rw [ofText_of_scanned hs, hwords, heq]
  rfl

/-- An integer literal that an enumerator is set to denotes one number.  If this has 64 bits with a
sign then it is what is stored, and otherwise the literal is an error.  Numbers of bounded size are
enough to find out. -/
theorem ofText_integer (hs : (scanText source).error? = none)
    (htokens : significant (scanText source).items = front ++ t :: behind)
    (hplace : SetsEnumerator d front ds es name) (hk : t.kind = .integer) :
    ∃ v, Literal.Denotes t.text.toList v ∧ (∀ u, Literal.Denotes t.text.toList u → u = v) ∧
      (-2 ^ 63 ≤ v ∧ v ≤ 2 ^ 63 - 1 →
        Checked.value? t = some (.ok v) ∧
          Stores d source front behind ds es ⟨name, .integer v⟩) ∧
      (¬ (-2 ^ 63 ≤ v ∧ v ≤ 2 ^ 63 - 1) →
        Checked.value? t = some (.error (.grammar t .representable)) ∧
          ofText d source = .error (.grammar t .representable)) := by
  have ht : t ∈ significant (scanText source).items := by simp [htokens]
  have hgood := Checked.isInteger_of_mem_scanText (List.mem_of_mem_filter ht) hk
  obtain ⟨v, hv⟩ := Literal.exists_denotes_of_isInteger hgood
  have hvalue? := Checked.value?_eq hgood
  rw [hv.value_eq, Checked.narrow] at hvalue?
  refine ⟨v, hv, fun u hu => hu.unique hv, fun hrange => ?_, fun hrange => ?_⟩
  · have hsmall := Literal.isRepresentable_iff.mpr hrange
    rw [hsmall] at hvalue?
    refine ⟨hvalue?, stores_of_initializer hs htokens hplace ?_⟩
    rw [← hv.value_eq] at hrange ⊢
    exact .integer hk hrange.1 hrange.2
  · have hlarge : Literal.isRepresentable v = false := by
      rw [← Bool.not_eq_true]
      exact fun h => hrange (Literal.isRepresentable_iff.mp h)
    rw [hlarge] at hvalue?
    refine ⟨hvalue?, ofText_error_of_large hs htokens hplace hk ?_⟩
    rw [hv.value_eq, hlarge]

/-- An enumerator can be set to the lowest number of 64 bits, but not to the one behind the
highest. -/
theorem ofText_integer_limits :
    ofText .native "typedef enum \x7b A = -0x8000000000000000, B = +0x8000000000000000 \x7d E;" =
      .error (.grammar ⟨.integer, "+0x8000000000000000", ⟨44, 1, 45⟩⟩ .representable) := by
  have hs : (scanText
      "typedef enum \x7b A = -0x8000000000000000, B = +0x8000000000000000 \x7d E;").error? = none := by
    cbv
  have htokens : significant (scanText
      "typedef enum \x7b A = -0x8000000000000000, B = +0x8000000000000000 \x7d E;").items =
      [⟨.typedefWord, "typedef", ⟨0, 1, 1⟩⟩, ⟨.enumWord, "enum", ⟨8, 1, 9⟩⟩,
        ⟨.leftBrace, "\x7b", ⟨13, 1, 14⟩⟩, ⟨.identifier, "A", ⟨15, 1, 16⟩⟩,
        ⟨.equals, "=", ⟨17, 1, 18⟩⟩, ⟨.integer, "-0x8000000000000000", ⟨19, 1, 20⟩⟩,
        ⟨.comma, ",", ⟨38, 1, 39⟩⟩, ⟨.identifier, "B", ⟨40, 1, 41⟩⟩,
        ⟨.equals, "=", ⟨42, 1, 43⟩⟩] ++
        ⟨.integer, "+0x8000000000000000", ⟨44, 1, 45⟩⟩ ::
          [⟨.rightBrace, "\x7d", ⟨64, 1, 65⟩⟩, ⟨.identifier, "E", ⟨66, 1, 67⟩⟩,
            ⟨.semicolon, ";", ⟨67, 1, 68⟩⟩] := by
    cbv
  have hlowest : InitializerOf ⟨.integer, "-0x8000000000000000", ⟨19, 1, 20⟩⟩
      (.integer (-0x8000000000000000)) := .integer rfl (by decide) (by decide)
  obtain ⟨v, hv, _, _, hlarge⟩ := ofText_integer (d := .native) hs htokens
    (.mk .none rfl rfl rfl (.more (.mk (.explicit rfl rfl hlowest) rfl) .none) rfl rfl) rfl
  refine (hlarge ?_).2
  rw [← hv.value_eq]
  decide

end Header

end EngineHeader
