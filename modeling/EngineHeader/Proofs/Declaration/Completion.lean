import EngineHeader.Proofs.Declaration.Soundness
import EngineHeader.Proofs.Token.Reads

/-!
# A reading fails at the first wrong word

Where a reading gets stuck, all that stands in front was right so far.  There are tokens that
complete it: put behind the words that were read, they make up something that the grammar
derives.  There is one lemma for each function of the parser.

The tokens that are put behind are words and punctuation.  Each can be written with a space
behind it and is read again as it was (`Spaced`).  Which ones are needed does not depend on how
deep the reading is.  What is open is closed from the inside out, so a lemma only says how what
the called function completes is completed further (`Viable.within`).
-/

namespace EngineHeader

namespace Token

/-- The token is no comment, and it is read where its text is written with a space behind it. -/
structure Spaced (t : Token) : Prop where
  kind_ne : t.kind ≠ .comment
  isLexeme : ∀ behind, IsLexeme t.kind t.text.toList (' ' :: behind)

/-- A token that is put behind what was read.  Its position does not matter. -/
def stand (kind : Kind) (text : String) : Token := ⟨kind, text, .start⟩

theorem spaced_mark {c : Char} {kind : Kind} (h : punctuation? c = some kind) :
    Spaced (stand kind (String.ofList [c])) := by
  refine ⟨(punctuation?_ne h).2.1, fun behind => ?_⟩
  have hlexeme : IsLexeme kind [c] (' ' :: behind) := .mark h
  rwa [← String.toList_ofList (l := [c])] at hlexeme

theorem spaced_word {word : String} (h : Directive.IsIdentifier word) :
    Spaced (stand (.ofWord word) word) := by
  refine ⟨ofWord_ne word (by decide) (by decide), fun behind => .word h ?_⟩
  rintro _ ⟨⟩
  rfl

theorem spaced_name : Spaced (stand .identifier "x") := by
  have h : Directive.IsIdentifier "x" := ⟨'x', [], rfl, rfl, List.forall_mem_nil _⟩
  exact spaced_word h

theorem spaced_typedef : Spaced (stand .typedefWord "typedef") := by
  have h : Directive.IsIdentifier "typedef" :=
    ⟨'t', ['y', 'p', 'e', 'd', 'e', 'f'], rfl, rfl, by simp [Text.isWordPart]⟩
  exact spaced_word h

end Token

namespace Declaration.Parser

open Grammar
open Token (Kind Word Spaced stand spaced_mark spaced_name spaced_typedef)

variable {α β : Type} {d : Dialect} {ws us rest : List Word} {read ts : List Token}
  {P Q : List Token → Prop} {kind : Kind} {expected : Expected}

/-! ## Completing what was read -/

/-- Some tokens that can be written complete these to tokens that have the property. -/
def Completable (P : List Token → Prop) (ts : List Token) : Prop :=
  ∃ cs, (∀ c ∈ cs, Spaced c) ∧ P (ts ++ cs)

theorem Completable.of (h : P ts) : Completable P ts :=
  ⟨[], List.forall_mem_nil _, by rwa [List.append_nil]⟩

theorem Completable.push {c : Token} (hc : Spaced c) (h : Completable P (ts ++ [c])) :
    Completable P ts := by
  obtain ⟨cs, hcs, h⟩ := h
  rw [List.append_assoc] at h
  exact ⟨c :: cs, List.forall_mem_cons.mpr ⟨hc, hcs⟩, h⟩

theorem Completable.mono (h : Completable P ts) (hPQ : ∀ us, P us → Completable Q us) :
    Completable Q ts := by
  obtain ⟨cs, hcs, h⟩ := h
  obtain ⟨cs', hcs', h⟩ := hPQ _ h
  rw [List.append_assoc] at h
  exact ⟨cs ++ cs', List.forall_mem_append.mpr ⟨hcs, hcs'⟩, h⟩

/-- Where `read` was read already, reading the words either comes through or gets stuck behind
words that can be completed. -/
def Viable (P : List Token → Prop) (read : List Token) (ws : List Word) (r : Except Stuck α) :
    Prop :=
  ∀ s, r = .error s → ∃ front, ws = front ++ s.rest ∧ Completable P (read ++ front.map Word.token)

theorem viable_ok {a : α} : Viable P read ws (.ok a : Except Stuck α) := nofun

theorem viable_stuck (h : Completable P read) :
    Viable P read ws (.error ⟨ws, expected⟩ : Except Stuck α) := by
  rintro _ ⟨⟩
  refine ⟨[], rfl, ?_⟩
  rwa [List.map_nil, List.append_nil]

/-- What completes a part completes the whole, if the whole can be completed behind each such
part. -/
theorem Viable.within {r : Except Stuck α} (h : Viable P [] ws r)
    (hPQ : ∀ us, P us → Completable Q (read ++ us)) : Viable Q read ws r := by
  intro s hs
  obtain ⟨front, heq, cs, hcs, hfront⟩ := h s hs
  obtain ⟨cs', hcs', h⟩ := hPQ _ hfront
  refine ⟨front, heq, cs ++ cs', List.forall_mem_append.mpr ⟨hcs, hcs'⟩, ?_⟩
  simpa using h

/-- Words that are read get behind those that were read already. -/
theorem Viable.behind (front : List Word) {r : Except Stuck α} (heq : ws = front ++ rest)
    (h : Viable P (read ++ front.map Word.token) rest r) : Viable P read ws r := by
  intro s hs
  obtain ⟨more, rfl, hcompletable⟩ := h s hs
  refine ⟨front ++ more, heq.trans (List.append_assoc _ _ _).symm, ?_⟩
  rwa [List.map_append, ← List.append_assoc]

theorem Viable.mono {r : Except Stuck α} (h : Viable P read ws r)
    (hPQ : ∀ us, P us → Completable Q us) : Viable Q read ws r := by
  intro s hs
  obtain ⟨front, heq, hfront⟩ := h s hs
  exact ⟨front, heq, hfront.mono hPQ⟩

theorem Viable.bind {r : Reading α us} {f : Taken α us → Except Stuck β} (hr : Viable P read ws r)
    (hf : ∀ {a rest} (h : rest.length < us.length), Yields r a rest →
      Viable P read ws (f ⟨a, rest, h⟩)) : Viable P read ws (r >>= f) := by
  cases r with
  | error s =>
    rintro _ ⟨⟩
    exact hr s rfl
  | ok t => exact hf t.shorter ⟨t.shorter, rfl⟩

/-! ## Single words -/

theorem expect_viable (h : Completable P read) : Viable P read ws (expect kind expected ws) := by
  cases ws with
  | nil => exact viable_stuck h
  | cons w ws =>
    rw [expect]
    split
    · exact viable_ok
    · exact viable_stuck h

/-- A word that has to be of a kind is read, and the rest comes behind it. -/
theorem viable_expect {f : Taken Word ws → Except Stuck β} (h : Completable P read)
    (hf : ∀ {w rest} (h : rest.length < ws.length), ws = w :: rest → w.kind = kind →
      Viable P (read ++ [w.token]) rest (f ⟨w, rest, h⟩)) :
    Viable P read ws (expect kind expected ws >>= f) := by
  refine (expect_viable h).bind fun hshorter hread => ?_
  obtain ⟨rfl, hk⟩ := yields_expect_iff.mp hread
  exact .behind [_] rfl (hf hshorter rfl hk)

theorem name_viable (h : Completable P read) : Viable P read ws (name expected ws) :=
  (expect_viable h).bind fun _ _ => viable_ok

/-! ## Types and arguments -/

theorem baseType_viable : Viable (fun ts => ∃ t, BaseTypeOf d ts t) [] ws (baseType d ws) := by
  have hnil : ∀ s ∈ ([] : List Token), s.kind = .star := List.forall_mem_nil _
  have hconst := optionalConst_sound ws
  rw [baseType]
  cases hc : optionalConst ws with
  | mk isConst ws₁ h₁ =>
  rw [hc] at hconst
  dsimp only at hconst
  rcases hconst with ⟨_, rfl⟩ | ⟨c, _, rfl, hck⟩
  · exact (name_viable (.push spaced_name (.of ⟨_, .plain rfl hnil (Nat.zero_le _)⟩))).bind
      fun _ _ => viable_ok
  · refine .behind [c] rfl ((name_viable (.push spaced_name (.of ?_))).bind fun _ _ => viable_ok)
    exact ⟨_, .const hck rfl hnil (Nat.zero_le _)⟩

/-- Separated arguments, and the parenthesis that closes them. -/
def Closed (item : List Token → Argument → Prop) (ts : List Token) : Prop :=
  ∃ us close as, ts = us ++ [close] ∧ close.kind = .rightParen ∧ Separated item .comma us as

section

variable {argument : (ws : List Word) → Reading Argument ws} {item : List Token → Argument → Prop}
  (hsound : ∀ {ws a rest}, Yields (argument ws) a rest →
    ∃ front, ws = front ++ rest ∧ item (front.map Word.token) a)
  (hviable : ∀ ws, Viable (fun ts => ∃ a, item ts a) [] ws (argument ws))

include hsound hviable

theorem someArguments_viable (ws : List Word) :
    Viable (Closed item) [] ws (someArguments argument ws) := by
  have hone : ∀ ts, (∃ a, item ts a) → Completable (Closed item) ts := by
    rintro ts ⟨a, ha⟩
    exact .push (spaced_mark (c := ')') rfl) (.of ⟨ts, _, [a], rfl, rfl, .one ha⟩)
  induction hlen : ws.length using Nat.strongRecOn generalizing ws with
  | ind n ih =>
  rw [someArguments]
  refine ((hviable ws).within hone).bind fun {first ws₁} hshorter hfirst => ?_
  obtain ⟨front, rfl, hitem⟩ := hsound hfirst
  refine .behind front rfl ?_
  dsimp only
  split
  · next comma behind _ heq =>
    obtain ⟨rfl, hcomma⟩ := accept?_eq_some heq
    rw [List.length_cons] at hshorter
    have hothers := ih behind.length (by omega) behind rfl
    refine .behind [comma] rfl ((hothers.within ?_).bind fun _ _ => viable_ok)
    rintro _ ⟨us, close, as, rfl, hclose, has⟩
    refine .of ⟨front.map Word.token ++ comma.token :: us, close, first :: as, ?_, hclose, ?_⟩
    · simp
    · exact .more hitem hcomma has
  · exact (expect_viable (hone _ ⟨first, hitem⟩)).bind fun _ _ => viable_ok

theorem argumentsOf_viable (ws : List Word) :
    Viable (fun ts => ∃ as, ArgumentsOf item ts as) [] ws (argumentsOf argument ws) := by
  have hnone : Completable (fun ts => ∃ as, ArgumentsOf item ts as) [] := by
    refine .push (spaced_mark (c := '(') rfl) (.push (spaced_mark (c := ')') rfl) (.of ⟨[], ?_⟩))
    exact .none rfl rfl
  rw [argumentsOf]
  refine viable_expect hnone fun _ _ hl => ?_
  dsimp only
  split
  · exact viable_ok
  · refine ((someArguments_viable hsound hviable _).within ?_).bind fun _ _ => viable_ok
    rintro _ ⟨us, close, as, rfl, hclose, has⟩
    exact .of ⟨as, .some hl has hclose⟩

end

/-- A base type is an argument. -/
theorem completable_plain (n : Nat) (h : ∃ t, BaseTypeOf d ts t) :
    Completable (fun ts => ∃ a, ArgumentOf d n ts a) ts := by
  obtain ⟨t, ht⟩ := h
  have hplain : PlainOf d (ts ++ []) (.plain t none) := .mk ht .absent
  rw [List.append_nil] at hplain
  refine .of ⟨.plain t none, ?_⟩
  cases n with
  | zero => exact hplain
  | succ n => exact .inl hplain

/-- A callback that was read through its name lacks three parentheses. -/
theorem completable_callback (n : Nat) {us : List Token} {l s : Token} {t : BaseType}
    {name? : Option String} (hd : d = .extension) (ht : BaseTypeOf d ts t)
    (hl : l.kind = .leftParen) (hs : s.kind = .star) (hname : OptionalName us name?) :
    Completable (fun ts => ∃ a, ArgumentOf d (n + 1) ts a) (ts ++ [l] ++ [s] ++ us) := by
  refine .push (spaced_mark (c := ')') rfl) ?_
  refine .push (spaced_mark (c := '(') rfl) ?_
  refine .push (spaced_mark (c := ')') rfl) (.of ⟨.callback t name? [], .inr ⟨hd, ?_⟩⟩)
  simpa using CallbackOf.mk ht hl hs hname rfl (.none rfl rfl)

theorem argument_viable (n : Nat) (ws : List Word) :
    Viable (fun ts => ∃ a, ArgumentOf d n ts a) [] ws (argument d n ws) := by
  induction n generalizing ws with
  | zero =>
    rw [argument]
    refine (baseType_viable.within fun _ => completable_plain 0).bind fun {t _} _ hread => ?_
    obtain ⟨front, rfl, ht⟩ := baseType_sound hread
    dsimp only
    split
    · exact .behind front rfl (viable_stuck (completable_plain 0 ⟨t, ht⟩))
    · exact viable_ok
  | succ n ih =>
    rw [argument]
    refine (baseType_viable.within fun _ => completable_plain _).bind fun {t _} _ hread => ?_
    obtain ⟨front, rfl, ht⟩ := baseType_sound hread
    refine .behind front rfl ?_
    dsimp only
    split
    · next hcallback =>
      have hd : d = .extension := by
        cases d with
        | native => simp [Dialect.allowsCallbacks] at hcallback
        | extension => rfl
      refine viable_expect (completable_plain _ ⟨t, ht⟩) fun _ _ hl => ?_
      refine viable_expect ?_ fun {_ ws₃} _ _ hs => ?_
      · refine .push (spaced_mark (c := '*') rfl) ?_
        have h := completable_callback n (s := stand .star "*") hd ht hl rfl .absent
        rwa [List.append_nil] at h
      obtain ⟨name, hws₃, hname⟩ := optionalName_sound ws₃
      refine .behind name hws₃ ?_
      have hnamed := completable_callback n hd ht hl hs hname
      refine viable_expect hnamed fun _ _ hr => ?_
      refine ((argumentsOf_viable (argument_sound n) ih _).within ?_).bind fun _ _ => viable_ok
      rintro us ⟨as, has⟩
      have hcallback := CallbackOf.mk ht hl hs hname hr has
      exact .of ⟨_, .inr ⟨hd, by simpa using hcallback⟩⟩
    · exact viable_ok

/-! ## Signatures -/

/-- A function pointer that was read through its name lacks its arguments. -/
theorem completable_pointer {t : BaseType} {l s name r : Token} (ht : BaseTypeOf d ts t)
    (hl : l.kind = .leftParen) (hs : s.kind = .star) (hname : name.kind = .identifier)
    (hr : r.kind = .rightParen) :
    Completable (fun ts => ∃ f, SignatureOf d ts f) (ts ++ [l] ++ [s] ++ [name] ++ [r]) := by
  refine .push (spaced_mark (c := '(') rfl) ?_
  refine .push (spaced_mark (c := ')') rfl) (.of ⟨⟨t, name.text, []⟩, ?_⟩)
  simpa using SignatureOf.mk ht hl hs hname hr (.none rfl rfl)

/-- Behind a base type, each word of the pointer may be the last. -/
theorem pointerName_viable {t : BaseType} (ht : BaseTypeOf d ts t) :
    Viable (fun ts => ∃ f, SignatureOf d ts f) ts ws (pointerName ws) := by
  have hopen {l s name : Token} (hl : l.kind = .leftParen) (hs : s.kind = .star)
      (hname : name.kind = .identifier) : Completable _ (ts ++ [l] ++ [s] ++ [name]) :=
    .push (spaced_mark (c := ')') rfl) (completable_pointer ht hl hs hname rfl)
  have hstar {l s : Token} (hl : l.kind = .leftParen) (hs : s.kind = .star) :
      Completable _ (ts ++ [l] ++ [s]) := .push spaced_name (hopen hl hs rfl)
  have hparen {l : Token} (hl : l.kind = .leftParen) : Completable _ (ts ++ [l]) :=
    .push (spaced_mark (c := '*') rfl) (hstar hl rfl)
  rw [pointerName]
  refine viable_expect (.push (spaced_mark (c := '(') rfl) (hparen rfl)) fun _ _ hl => ?_
  refine viable_expect (hparen hl) fun _ _ hs => ?_
  refine (name_viable (hstar hl hs)).bind fun _ hread => ?_
  obtain ⟨name, rfl, hname, _⟩ := yields_name_iff.mp hread
  refine .behind [name] rfl ?_
  exact (expect_viable (hopen hl hs hname)).bind fun _ _ => viable_ok

theorem arguments_viable {front : List Word} {t : BaseType} {n : String}
    (ht : BaseTypeOf d (front.map Word.token) t) (hname : Yields (pointerName ws) n us) :
    Viable (fun ts => ∃ f, SignatureOf d ts f) [] (front ++ ws) (arguments d us) := by
  obtain ⟨l, s, name, r, rfl, hl, hs, hk, hr, rfl⟩ := pointerName_sound hname
  have hargs := argumentsOf_viable (argument_sound maxNesting) (argument_viable (d := d) maxNesting)
  refine .behind (front ++ [l, s, name, r]) (by simp) ((hargs us).within ?_)
  rintro vs ⟨as, has⟩
  exact .of ⟨_, by simpa using SignatureOf.mk ht hl hs hk hr has⟩

/-! ## Enumerations -/

theorem initializer_viable :
    Viable (fun ts => ∃ t v, ts = [t] ∧ InitializerOf t v) [] ws (initializer ws) := by
  have hname : Completable (fun ts => ∃ t v, ts = [t] ∧ InitializerOf t v) [] :=
    .push spaced_name (.of ⟨_, _, rfl, .reference rfl⟩)
  cases ws with
  | nil => exact viable_stuck hname
  | cons w ws =>
    rw [initializer]
    split
    · dsimp only
      split
      · exact viable_ok
      · exact viable_stuck hname
    · split
      · exact viable_ok
      · exact viable_stuck hname

theorem enumerator_viable : Viable (fun ts => ∃ e, EnumeratorOf ts e) [] ws (enumerator ws) := by
  rw [enumerator]
  refine (name_viable (.push spaced_name (.of ⟨_, .implicit rfl⟩))).bind fun _ hread => ?_
  obtain ⟨name, rfl, hname, rfl⟩ := yields_name_iff.mp hread
  dsimp only
  split
  · next equals behind _ heq =>
    obtain ⟨rfl, hequals⟩ := accept?_eq_some heq
    refine .behind [name, equals] rfl ((initializer_viable.within ?_).bind fun _ _ => viable_ok)
    rintro _ ⟨t, v, rfl, hv⟩
    exact .of ⟨_, .explicit hname hequals hv⟩
  · exact viable_ok

/-- Enumerators, and the brace that closes them. -/
def ClosedEnumerators (ts : List Token) : Prop :=
  ∃ us close es, ts = us ++ [close] ∧ close.kind = .rightBrace ∧ EnumeratorsOf us es

theorem enumerators_viable (ws : List Word) :
    Viable ClosedEnumerators [] ws (enumerators ws) := by
  have hone : ∀ ts, (∃ e, EnumeratorOf ts e) → Completable ClosedEnumerators ts := by
    rintro ts ⟨e, he⟩
    exact .push (spaced_mark (c := '\x7d') rfl) (.of ⟨ts, _, [e], rfl, rfl, .some (.one he)⟩)
  induction hlen : ws.length using Nat.strongRecOn generalizing ws with
  | ind n ih =>
  rw [enumerators]
  split
  · exact viable_ok
  refine (enumerator_viable.within hone).bind fun {first _} _ hread => ?_
  obtain ⟨front, rfl, he⟩ := enumerator_sound hread
  refine .behind front rfl ?_
  dsimp only
  split
  · next comma behind hshorter heq =>
    obtain ⟨rfl, hcomma⟩ := accept?_eq_some heq
    have hothers := ih behind.length (by simp at hlen; omega) behind rfl
    refine .behind [comma] rfl ((hothers.within ?_).bind fun _ _ => viable_ok)
    rintro _ ⟨us, close, es, rfl, hclose, hes⟩
    refine .of ⟨front.map Word.token ++ comma.token :: us, close, first :: es, ?_, hclose, ?_⟩
    · simp
    · exact EnumeratorsOf.more he hcomma hes
  · exact (expect_viable (hone _ ⟨first, he⟩)).bind fun _ _ => viable_ok

/-- An enumeration, behind its keyword. -/
def EnumerationOf (ts : List Token) : Prop :=
  ∃ l us, ts = l :: us ∧ l.kind = .leftBrace ∧ ClosedEnumerators us

theorem enumeration_viable : Viable EnumerationOf [] ws (enumeration ws) := by
  have hempty : ClosedEnumerators [stand .rightBrace (String.ofList ['\x7d'])] :=
    ⟨[], _, [], rfl, rfl, .none⟩
  rw [enumeration]
  refine viable_expect ?_ fun {l _} _ _ hl => ?_
  · refine .push (spaced_mark (c := '\x7b') rfl) ?_
    exact .push (spaced_mark (c := '\x7d') rfl) (.of ⟨_, _, rfl, rfl, hempty⟩)
  · refine ((enumerators_viable _).within ?_).bind fun _ _ => viable_ok
    exact fun us h => .of ⟨l.token, us, rfl, hl, h⟩

/-! ## Structures -/

/-- A function pointer and a semicolon are a field. -/
theorem completable_field (h : ∃ f, SignatureOf d ts f) :
    Completable (fun ts => ∃ f, FieldOf d ts f) ts := by
  obtain ⟨f, hf⟩ := h
  exact .push (spaced_mark (c := ';') rfl) (.of ⟨_, .function hf rfl⟩)

theorem field_viable : Viable (fun ts => ∃ f, FieldOf d ts f) [] ws (field d ws) := by
  have hplain {t : BaseType} {name : Token} {ts : List Token} (ht : BaseTypeOf d ts t)
      (hname : name.kind = .identifier) :
      Completable (fun ts => ∃ f, FieldOf d ts f) (ts ++ [name]) := by
    refine .push (spaced_mark (c := ';') rfl) (.of ⟨.plain t name.text, ?_⟩)
    simpa using FieldOf.plain ht hname rfl
  have htype : ∀ ts, (∃ t, BaseTypeOf d ts t) → Completable (fun ts => ∃ f, FieldOf d ts f) ts := by
    rintro ts ⟨t, ht⟩
    exact .push spaced_name (hplain ht rfl)
  rw [field]
  refine (baseType_viable.within htype).bind fun {t _} _ hread => ?_
  obtain ⟨front, rfl, ht⟩ := baseType_sound hread
  dsimp only
  split
  · refine (Viable.behind front rfl ?_).bind fun _ hname => ?_
    · exact (pointerName_viable ht).mono fun _ => completable_field
    have hargs := (arguments_viable ht hname).mono fun _ => completable_field
    refine hargs.bind fun {r _} _ hread => ?_
    obtain ⟨as, close⟩ := r
    obtain ⟨taken, heq, _, hsig⟩ := signature_sound ht hname hread
    rw [List.append_cons] at heq
    refine .behind (taken ++ [close]) heq ?_
    exact (expect_viable (completable_field ⟨_, hsig⟩)).bind fun _ _ => viable_ok
  · refine .behind front rfl ((name_viable (htype _ ⟨t, ht⟩)).bind fun _ hread => ?_)
    obtain ⟨name, rfl, hname, _⟩ := yields_name_iff.mp hread
    refine .behind [name] rfl ?_
    exact (expect_viable (hplain ht hname)).bind fun _ _ => viable_ok

/-- Fields, and the brace that closes them. -/
def ClosedFields (d : Dialect) (ts : List Token) : Prop :=
  ∃ us close fs, ts = us ++ [close] ∧ close.kind = .rightBrace ∧ Many (FieldOf d) us fs

theorem fields_viable (ws : List Word) : Viable (ClosedFields d) [] ws (fields d ws) := by
  have hone : ∀ ts, (∃ f, FieldOf d ts f) → Completable (ClosedFields d) ts := by
    rintro ts ⟨f, hf⟩
    refine .push (spaced_mark (c := '\x7d') rfl) (.of ⟨ts, _, [f], rfl, rfl, ?_⟩)
    simpa using Many.more hf .none
  induction hlen : ws.length using Nat.strongRecOn generalizing ws with
  | ind n ih =>
  rw [fields]
  split
  · exact viable_ok
  refine (field_viable.within hone).bind fun {first rest} hshorter hread => ?_
  obtain ⟨front, rfl, hf⟩ := field_sound hread
  have hothers := ih rest.length (hlen ▸ hshorter) rest rfl
  refine .behind front rfl ((hothers.within ?_).bind fun _ _ => viable_ok)
  rintro _ ⟨us, close, fs, rfl, hclose, hfs⟩
  refine .of ⟨front.map Word.token ++ us, close, _ :: fs, ?_, hclose, .more hf hfs⟩
  simp

/-- A structure, behind its keyword. -/
def StructOf (d : Dialect) (ts : List Token) : Prop :=
  ∃ l us name, ts = l :: (us ++ [name]) ∧ l.kind = .leftBrace ∧ ClosedFields d us ∧
    name.kind = .identifier

theorem struct_viable : Viable (StructOf d) [] ws (struct d ws) := by
  have hclosed {l : Token} {us : List Token} (hl : l.kind = .leftBrace) (h : ClosedFields d us) :
      Completable (StructOf d) ([l] ++ us) :=
    .push spaced_name (.of ⟨l, us, _, rfl, hl, h, rfl⟩)
  have hopen {l : Token} (hl : l.kind = .leftBrace) : Completable (StructOf d) [l] :=
    .push (spaced_mark (c := '\x7d') rfl) (hclosed hl ⟨[], _, [], rfl, rfl, .none⟩)
  rw [struct]
  refine viable_expect (.push (spaced_mark (c := '\x7b') rfl) (hopen rfl))
    fun {l inside} _ _ hl => ?_
  refine ((fields_viable inside).within fun us => hclosed hl).bind fun _ hread => ?_
  obtain ⟨front, close, rfl, hclose, hfs⟩ := fields_sound hread
  refine .behind (front ++ [close]) (List.append_cons _ _ _) ?_
  refine (name_viable ?_).bind fun _ _ => viable_ok
  have h := hclosed hl ⟨front.map Word.token, close.token, _, rfl, hclose, hfs⟩
  simpa using h

/-! ## Declarations -/

theorem aliasOrFunction_viable :
    Viable (fun ts => ∃ e, DeclaredOf d ts e) [] ws (aliasOrFunction d ws) := by
  have htype : ∀ ts, (∃ t, BaseTypeOf d ts t) →
      Completable (fun ts => ∃ e, DeclaredOf d ts e) ts := by
    rintro ts ⟨t, ht⟩
    exact .push spaced_name (.of ⟨_, .typeAlias ht rfl⟩)
  have hfunction : ∀ ts, (∃ f, SignatureOf d ts f) →
      Completable (fun ts => ∃ e, DeclaredOf d ts e) ts := by
    rintro ts ⟨f, hf⟩
    exact .of ⟨_, .function hf⟩
  rw [aliasOrFunction]
  refine (baseType_viable.within htype).bind fun {t _} _ hread => ?_
  obtain ⟨front, rfl, ht⟩ := baseType_sound hread
  dsimp only
  split
  · refine (Viable.behind front rfl ((pointerName_viable ht).mono hfunction)).bind fun _ hname => ?_
    exact ((arguments_viable ht hname).mono hfunction).bind fun _ _ => viable_ok
  · refine .behind front rfl ((name_viable (htype _ ⟨t, ht⟩)).bind fun _ _ => viable_ok)

theorem declared_viable : Viable (fun ts => ∃ e, DeclaredOf d ts e) [] ws (declared d ws) := by
  rw [declared]
  split
  · next word behind _ heq =>
    obtain ⟨rfl, hword⟩ := accept?_eq_some heq
    refine .behind [word] rfl ((enumeration_viable.within ?_).bind fun _ _ => viable_ok)
    rintro _ ⟨l, _, rfl, hl, us, close, es, rfl, hclose, hes⟩
    exact .of ⟨_, .enumeration hword hl hes hclose .absent⟩
  · split
    · next word behind _ heq =>
      obtain ⟨rfl, hword⟩ := accept?_eq_some heq
      refine .behind [word] rfl ((struct_viable.within ?_).bind fun _ _ => viable_ok)
      rintro _ ⟨l, _, name, rfl, hl, ⟨us, close, fs, rfl, hclose, hfs⟩, hname⟩
      exact .of ⟨_, by simpa using DeclaredOf.struct hword hl hfs hclose hname⟩
    · exact aliasOrFunction_viable

theorem declaration_viable :
    Viable (fun ts => ∃ e, DeclarationOf d ts e) [] ws (declaration d ws) := by
  have hdeclared {word : Token} {ts : List Token} (hword : word.kind = .typedefWord)
      (h : ∃ e, DeclaredOf d ts e) :
      Completable (fun ts => ∃ e, DeclarationOf d ts e) ([word] ++ ts) := by
    obtain ⟨e, he⟩ := h
    exact .push (spaced_mark (c := ';') rfl) (.of ⟨e, .mk hword he rfl⟩)
  have hopen {word : Token} (hword : word.kind = .typedefWord) :
      Completable (fun ts => ∃ e, DeclarationOf d ts e) [word] := by
    have htype : BaseTypeOf d [stand .identifier "x"] ⟨false, "x", 0⟩ :=
      .plain rfl (List.forall_mem_nil _) (Nat.zero_le _)
    exact .push spaced_name (.push spaced_name (hdeclared hword ⟨_, .typeAlias htype rfl⟩))
  rw [declaration]
  refine viable_expect (.push spaced_typedef (hopen rfl)) fun {word behind} _ _ hword => ?_
  refine (declared_viable.within fun us => hdeclared hword).bind fun _ hread => ?_
  obtain ⟨front, bare, rfl, _, h⟩ := declared_sound hread
  exact .behind front rfl ((expect_viable (hdeclared hword ⟨bare, h⟩)).bind fun _ _ => viable_ok)

/-- Where the words of a header get stuck, those in front begin a header. -/
theorem declarationsFrom_viable (taken : List Declaration) (ws : List Word) :
    Viable (fun ts => ∃ ds, Many (DeclarationOf d) ts ds) [] ws (declarationsFrom d taken ws) := by
  have hone : ∀ ts, (∃ e, DeclarationOf d ts e) →
      Completable (fun ts => ∃ ds, Many (DeclarationOf d) ts ds) ts := by
    rintro ts ⟨e, he⟩
    exact .of ⟨[e], by simpa using Many.more he .none⟩
  induction hlen : ws.length using Nat.strongRecOn generalizing ws taken with
  | ind n ih =>
  rw [declarationsFrom]
  split
  · exact viable_ok
  refine (declaration_viable.within hone).bind fun {r rest} hshorter hread => ?_
  obtain ⟨content, semicolon⟩ := r
  obtain ⟨front, bare, rfl, _, he⟩ := declaration_sound hread
  have hothers := ih rest.length (hlen ▸ hshorter)
    ((comments semicolon.comments).reverse ++ content :: taken) rest rfl
  refine .behind front rfl (hothers.within ?_)
  rintro us ⟨ds, hds⟩
  exact .of ⟨bare :: ds, .more he hds⟩

end Declaration.Parser

end EngineHeader
