import EngineHeader.CommandLine
import Mathlib

/-!
# How command lines are spelled

What a command line may say, told without its reader.  It makes a list of *requests*, and each of
them is spelled in one of a few ways (`Request.Spelled`).  The requests may come in any order.
Behind two hyphens every argument is a header (`Spells`).

The options have what the requests ask for (`Options.Collects`).  Only names to define may be asked
for more than once.  The reader accepts just the command lines that are spelled like this, and gives
just these options (`Options.ofArguments_eq_some_iff`).
-/

namespace EngineHeader.CommandLine

/-! ## Requests -/

/-- One thing that a command line asks for. -/
inductive Request where
  | header (name : String)
  | config (file : String)
  | dialect (d : Dialect)
  | cplusplus
  | define (name : String)
deriving DecidableEq, Repr

namespace Request

/-- The header that is asked for. -/
def header? : Request → Option String
  | header name => some name
  | _ => none

/-- The file of the configuration that is asked for. -/
def config? : Request → Option String
  | config file => some file
  | _ => none

/-- The dialect that is asked for. -/
def dialect? : Request → Option Dialect
  | dialect d => some d
  | _ => none

/-- The name that is to be defined. -/
def define? : Request → Option String
  | define name => some name
  | _ => none

end Request

/-- A text that does not look like an option. -/
def IsPlain (text : String) : Prop := text = "-" ∨ text.toList.head? ≠ some '-'

/-- The arguments that spell a request. -/
inductive Request.Spelled : Request → List String → Prop where
  | header {name : String} : IsPlain name → name ≠ "" → Spelled (.header name) [name]
  | configNext {file : String} :
    IsPlain file → file ≠ "" → Spelled (.config file) ["--config", file]
  | configEquals {file : String} : file ≠ "" → Spelled (.config file) ["--config=" ++ file]
  | dialectNext (d : Dialect) : Spelled (.dialect d) ["--dialect", d.name]
  | dialectEquals (d : Dialect) : Spelled (.dialect d) ["--dialect=" ++ d.name]
  | cplusplus : Spelled .cplusplus ["--cplusplus"]
  | defineNext {name : String} : IsPlain name → Spelled (.define name) ["-D", name]
  | defineEquals (name : String) : Spelled (.define name) ["-D=" ++ name]
  | defineJoined {name : String} :
    name ≠ "" → name.toList.head? ≠ some '=' → Spelled (.define name) ["-D" ++ name]

/-- The arguments that spell requests. -/
inductive Spells : List Request → List String → Prop where
  | nil : Spells [] []
  | cons {r : Request} {rs : List Request} {texts arguments : List String} :
    r.Spelled texts → Spells rs arguments → Spells (r :: rs) (texts ++ arguments)
  | headers {names : List String} :
    (∀ name ∈ names, name ≠ "") → Spells (names.map .header) ("--" :: names)

/-- The options have what the requests ask for, and nothing else. -/
@[mk_iff]
structure Options.Collects (o : Options) (rs : List Request) : Prop where
  header : rs.filterMap Request.header? = o.header?.toList
  config : rs.filterMap Request.config? = o.config?.toList
  dialect : rs.filterMap Request.dialect? = o.dialect?.toList
  cplusplus : rs.count .cplusplus = o.cplusplus.toNat
  defines : rs.filterMap Request.define? = o.defines

/-! ## The options of some requests -/

namespace Options

/-- Add what a request asks for. -/
def ask (o : Options) : Request → Option Options
  | .header name => (once o.header? name).map fun header? => { o with header? }
  | .config file => (once o.config? file).map fun config? => { o with config? }
  | .dialect d => (once o.dialect? d).map fun dialect? => { o with dialect? }
  | .cplusplus => if o.cplusplus then none else some { o with cplusplus := true }
  | .define name => some (o.addDefine name)

/-- The options have what they had and what the requests ask for. -/
@[mk_iff]
structure Extends (o₀ : Options) (rs : List Request) (o : Options) : Prop where
  header : o₀.header?.toList ++ rs.filterMap Request.header? = o.header?.toList
  config : o₀.config?.toList ++ rs.filterMap Request.config? = o.config?.toList
  dialect : o₀.dialect?.toList ++ rs.filterMap Request.dialect? = o.dialect?.toList
  cplusplus : o₀.cplusplus.toNat + rs.count .cplusplus = o.cplusplus.toNat
  defines : o₀.defines ++ rs.filterMap Request.define? = o.defines

theorem toList_inj {α : Type} {a b : Option α} (h : a.toList = b.toList) : a = b := by
  cases a <;> cases b <;> simp_all

theorem toNat_inj {a b : Bool} (h : a.toNat = b.toNat) : a = b := by
  cases a <;> cases b <;> simp_all

theorem extends_nil_iff {o₀ o : Options} : o₀.Extends [] o ↔ o₀ = o := by
  constructor
  · intro ⟨hheader, hconfig, hdialect, hcplusplus, hdefines⟩
    simp only [List.filterMap_nil, List.append_nil] at hheader hconfig hdialect hdefines
    rw [List.count_nil, Nat.add_zero] at hcplusplus
    have hheader := toList_inj hheader
    have hconfig := toList_inj hconfig
    have hdialect := toList_inj hdialect
    have hcplusplus := toNat_inj hcplusplus
    cases o₀
    cases o
    simp_all
  · rintro rfl
    exact ⟨by simp, by simp, by simp, by simp, by simp⟩

theorem toList_append_cons {α : Type} {old new : Option α} {x : α} {xs : List α} :
    old.toList ++ x :: xs = new.toList ↔
      ∃ added, once old x = some added ∧ added.toList ++ xs = new.toList := by
  cases old with
  | none => simp [once]
  | some y => cases new <;> simp [once]

theorem toNat_add_succ {old new : Bool} {n : Nat} :
    old.toNat + (n + 1) = new.toNat ↔ old = false ∧ 1 + n = new.toNat := by
  cases old with
  | false => simp [Nat.add_comm]
  | true =>
    cases new with
    | false => simp
    | true => simp

/-- A first request is added on its own.  It changes the component that it is about, and the others
stay as they are. -/
theorem extends_cons_iff {o₀ o : Options} {r : Request} {rs : List Request} :
    o₀.Extends (r :: rs) o ↔ ∃ o₁, o₀.ask r = some o₁ ∧ o₁.Extends rs o := by
  cases r with
  | header name =>
    simp only [ask, Option.map_eq_some_iff, exists_exists_and_eq_and]
    constructor
    · intro h
      obtain ⟨header?, honce, hheader⟩ := toList_append_cons.mp h.header
      exact ⟨header?, honce, hheader, h.config, h.dialect, h.cplusplus, h.defines⟩
    · intro ⟨header?, honce, h⟩
      have hheader := toList_append_cons.mpr ⟨header?, honce, h.header⟩
      exact ⟨hheader, h.config, h.dialect, h.cplusplus, h.defines⟩
  | config file =>
    simp only [ask, Option.map_eq_some_iff, exists_exists_and_eq_and]
    constructor
    · intro h
      obtain ⟨config?, honce, hconfig⟩ := toList_append_cons.mp h.config
      exact ⟨config?, honce, h.header, hconfig, h.dialect, h.cplusplus, h.defines⟩
    · intro ⟨config?, honce, h⟩
      have hconfig := toList_append_cons.mpr ⟨config?, honce, h.config⟩
      exact ⟨h.header, hconfig, h.dialect, h.cplusplus, h.defines⟩
  | dialect d =>
    simp only [ask, Option.map_eq_some_iff, exists_exists_and_eq_and]
    constructor
    · intro h
      obtain ⟨dialect?, honce, hdialect⟩ := toList_append_cons.mp h.dialect
      exact ⟨dialect?, honce, h.header, h.config, hdialect, h.cplusplus, h.defines⟩
    · intro ⟨dialect?, honce, h⟩
      have hdialect := toList_append_cons.mpr ⟨dialect?, honce, h.dialect⟩
      exact ⟨h.header, h.config, hdialect, h.cplusplus, h.defines⟩
  | cplusplus =>
    have hcount : (Request.cplusplus :: rs).count .cplusplus = rs.count .cplusplus + 1 :=
      List.count_cons_self
    rw [ask]
    constructor
    · intro h
      obtain ⟨hdown, hcplusplus⟩ := toNat_add_succ.mp (hcount ▸ h.cplusplus)
      rw [if_neg (Bool.not_eq_true _ ▸ hdown)]
      exact ⟨_, rfl, h.header, h.config, h.dialect, hcplusplus, h.defines⟩
    · rintro ⟨o₁, hask, h⟩
      obtain ⟨hdown, heq⟩ := Option.ite_none_left_eq_some.mp hask
      cases heq
      have hcplusplus := toNat_add_succ.mpr ⟨Bool.not_eq_true _ ▸ hdown, h.cplusplus⟩
      exact ⟨h.header, h.config, h.dialect, hcount ▸ hcplusplus, h.defines⟩
  | define name =>
    have hdefines : (o₀.addDefine name).defines ++ rs.filterMap Request.define? =
        o₀.defines ++ (Request.define name :: rs).filterMap Request.define? :=
      List.append_assoc ..
    constructor
    · intro h
      have hadded := hdefines.trans h.defines
      exact ⟨_, rfl, h.header, h.config, h.dialect, h.cplusplus, hadded⟩
    · rintro ⟨_, ⟨⟩, h⟩
      have hrequested := hdefines.symm.trans h.defines
      exact ⟨h.header, h.config, h.dialect, h.cplusplus, hrequested⟩

/-- Adding what some requests ask for, one after the other. -/
theorem foldlM_ask_eq_some_iff {o₀ o : Options} {rs : List Request} :
    rs.foldlM ask o₀ = some o ↔ o₀.Extends rs o := by
  induction rs generalizing o₀ with
  | nil => simp [extends_nil_iff]
  | cons r rs ih => simp [extends_cons_iff, Option.bind_eq_some_iff, ih]

theorem extends_empty_iff {rs : List Request} {o : Options} :
    empty.Extends rs o ↔ o.Collects rs := by
  simp [extends_iff, collects_iff, empty]

end Options

/-! ## What one argument is -/

namespace Argument

/-- How an argument is spelled. -/
inductive Shape : String → Argument → Prop where
  | header {text : String} : IsPlain text → Shape text .header
  | endOfOptions : Shape "--" .endOfOptions
  | define : Shape "-D" (.define none)
  | defineEquals (name : String) : Shape ("-D=" ++ name) (.define (some name))
  | defineJoined {name : String} : name ≠ "" → name.toList.head? ≠ some '=' →
    Shape ("-D" ++ name) (.define (some name))
  | long (name : String) : Shape ("--" ++ name) (.long name none)
  | longEquals (name value : String) :
    Shape ("--" ++ name ++ "=" ++ value) (.long name (some value))
  | unknown (text : String) : Shape text .unknown

theorem shape_ofLong {text : String} {option : List Char} (h : text.toList = '-' :: '-' :: option) :
    Shape text (ofLong option) := by
  have hsplit := List.takeWhile_append_dropWhile (p := (· != '=')) (l := option)
  rw [ofLong]
  split
  · next hnone =>
    have htext : text = "--" ++ String.ofList (option.takeWhile (· != '=')) := by
      apply String.toList_injective
      rw [hnone, List.append_nil] at hsplit
      simp [h, hsplit]
    rw [htext]
    exact .long _
  · next c value hvalue =>
    have hc : c = '=' := by
      have hhead := List.head?_dropWhile_not (· != '=') option
      rw [hvalue] at hhead
      simpa using hhead
    have htext : text = "--" ++ String.ofList (option.takeWhile (· != '=')) ++ "=" ++
        String.ofList value := by
      apply String.toList_injective
      simp_all
    rw [htext]
    exact .longEquals _ _

/-- An argument is spelled as what it is read as. -/
theorem shape_ofText (text : String) : Shape text (ofText text) := by
  have hback : String.ofList text.toList = text := String.ofList_toList
  rw [ofText]
  split
  · next h =>
    rw [h] at hback
    rw [← hback]
    exact .endOfOptions
  · next option _ h => exact shape_ofLong h
  · next h =>
    rw [h] at hback
    exact .header (.inl hback.symm)
  · next h =>
    rw [h] at hback
    rw [← hback]
    exact .define
  · next value h =>
    have htext : text = "-D=" ++ String.ofList value := by
      apply String.toList_injective
      simp [h]
    rw [htext]
    exact .defineEquals _
  · next value hne hequals h =>
    have htext : text = "-D" ++ String.ofList value := by
      apply String.toList_injective
      simp [h]
    rw [htext]
    refine .defineJoined ?_ ?_
    · intro hempty
      exact hne (String.toList_ofList.symm.trans (congrArg String.toList hempty))
    · rw [String.toList_ofList]
      intro hhead
      obtain ⟨behind, hbehind⟩ := List.head?_eq_some_iff.mp hhead
      exact hequals behind hbehind
  · exact .unknown _
  · next h =>
    refine .header (.inr ?_)
    intro hhead
    obtain ⟨behind, hbehind⟩ := List.head?_eq_some_iff.mp hhead
    exact h behind hbehind

theorem shape_of_ofText {text : String} {a : Argument} (h : ofText text = a) : Shape text a :=
  h ▸ shape_ofText text

theorem ofText_eq_header_iff {text : String} : ofText text = .header ↔ IsPlain text := by
  constructor
  · intro h
    cases shape_of_ofText h with
    | header hplain => exact hplain
  · rintro (rfl | hhead)
    · rfl
    · rw [ofText]
      split
      case h_8 => rfl
      all_goals
        next h =>
        exact absurd (congrArg List.head? h) hhead

theorem isValue_iff {text : String} : isValue text = true ↔ IsPlain text := by
  rw [isValue, decide_eq_true_iff, ofText_eq_header_iff]

theorem ofText_config (file : String) :
    ofText ("--config=" ++ file) = .long "config" (some file) := by
  simp [ofText, ofLong, String.toList_append]

theorem ofText_dialect (value : String) :
    ofText ("--dialect=" ++ value) = .long "dialect" (some value) := by
  simp [ofText, ofLong, String.toList_append]

theorem ofText_define (name : String) : ofText ("-D=" ++ name) = .define (some name) := by
  simp [ofText, String.toList_append]

theorem ofText_define_joined {name : String} (hne : name ≠ "")
    (hhead : name.toList.head? ≠ some '=') :
    ofText ("-D" ++ name) = .define (some name) := by
  cases hname : name.toList with
  | nil => exact absurd (String.toList_eq_nil_iff.mp hname) hne
  | cons c cs =>
    rw [hname] at hhead
    have hc : c ≠ '=' := fun hc => hhead (congrArg some hc)
    have hback : String.ofList (c :: cs) = name := by rw [← hname, String.ofList_toList]
    simp [ofText, String.toList_append, hname, hc, hback]

end Argument

/-! ## What the reader accepts -/

namespace Options

open Argument

theorem addHeader_eq_ask (o : Options) {name : String} (h : name ≠ "") :
    o.addHeader name = o.ask (.header name) := by
  simp [addHeader, ask, fileName, h, Option.map_eq_bind]

theorem addLong_config (o : Options) {file : String} (h : file ≠ "") :
    o.addLong "config" file = o.ask (.config file) := by
  simp [addLong, ask, fileName, h, Option.map_eq_bind]

theorem addLong_dialect (o : Options) (d : Dialect) :
    o.addLong "dialect" d.name = o.ask (.dialect d) := by
  simp [addLong, ask, Option.map_eq_bind]

theorem addHeaders_eq_foldlM (o : Options) {names : List String} (h : ∀ name ∈ names, name ≠ "") :
    o.addHeaders names = (names.map Request.header).foldlM ask o := by
  rw [addHeaders]
  induction names generalizing o with
  | nil => rfl
  | cons name names ih =>
    obtain ⟨hname, hnames⟩ := List.forall_mem_cons.mp h
    simp [addHeader_eq_ask o hname, ih _ hnames]

/-- The arguments that spell a request add what it asks for. -/
theorem add_of_spelled {r : Request} {texts : List String} (h : r.Spelled texts) (o : Options)
    (arguments : List String) : o.add (texts ++ arguments) = (o.ask r).bind (·.add arguments) := by
  rw [add.eq_def]
  cases h with
  | header hplain hne =>
    simp only [List.singleton_append, ofText_eq_header_iff.mpr hplain, addHeader_eq_ask o hne]
    rfl
  | configNext hplain hne =>
    have hconfig : Argument.ofText "--config" = .long "config" none := by decide
    simp [hconfig, isValue_iff.mpr hplain, addLong_config o hne]
  | configEquals hne => simp [ofText_config, addLong_config o hne]
  | dialectNext d =>
    have hdialect : Argument.ofText "--dialect" = .long "dialect" none := by decide
    have hvalue : isValue d.name = true := by cases d <;> decide
    simp [hdialect, hvalue, addLong_dialect]
  | dialectEquals d => simp [ofText_dialect, addLong_dialect]
  | cplusplus =>
    have hcplusplus : Argument.ofText "--cplusplus" = .long "cplusplus" none := by decide
    cases ho : o.cplusplus <;> simp [hcplusplus, ask, ho]
  | defineNext hplain =>
    have hdefine : Argument.ofText "-D" = .define none := by decide
    simp [hdefine, ask, isValue_iff.mpr hplain]
  | defineEquals name => simp [ofText_define, ask]
  | defineJoined hne hhead => simp [ofText_define_joined hne hhead, ask]

/-- A command line that is spelled right adds what it asks for. -/
theorem add_of_spells {rs : List Request} {arguments : List String} (h : Spells rs arguments)
    (o : Options) : o.add arguments = rs.foldlM ask o := by
  induction h generalizing o with
  | nil => rfl
  | cons hr _ ih =>
    rw [add_of_spelled hr, List.foldlM_cons]
    exact Option.bind_congr fun o₁ _ => ih o₁
  | headers hnames => exact addHeaders_eq_foldlM o hnames

theorem ask_of_addHeader {o₀ o : Options} {name : String} (h : o₀.addHeader name = some o) :
    name ≠ "" ∧ o₀.ask (.header name) = some o := by
  have hne : name ≠ "" := by
    rintro rfl
    cases h
  exact ⟨hne, addHeader_eq_ask o₀ hne ▸ h⟩

theorem ne_empty_of_addHeaders {o₀ o : Options} {names : List String}
    (h : o₀.addHeaders names = some o) : ∀ name ∈ names, name ≠ "" := by
  induction names generalizing o₀ with
  | nil => exact List.forall_mem_nil _
  | cons name names ih =>
    obtain ⟨o₁, hname, hnames⟩ := Option.bind_eq_some_iff.mp h
    exact List.forall_mem_cons.mpr ⟨(ask_of_addHeader hname).1, ih hnames⟩

theorem name_of_ofName? {name : String} {d : Dialect} (h : Dialect.ofName? name = some d) :
    name = d.name := by
  unfold Dialect.ofName? at h
  split at h
  · next hname =>
    cases h
    exact hname
  split at h
  · next hname =>
    cases h
    exact hname
  · cases h

theorem ask_of_addLong {o₀ o : Options} {option value : String}
    (h : o₀.addLong option value = some o) :
    (option = "config" ∧ value ≠ "" ∧ o₀.ask (.config value) = some o) ∨
      ∃ d : Dialect, option = "dialect" ∧ value = d.name ∧ o₀.ask (.dialect d) = some o := by
  by_cases hconfig : option = "config"
  · subst hconfig
    have hne : value ≠ "" := by
      rintro rfl
      cases h
    exact .inl ⟨rfl, hne, addLong_config o₀ hne ▸ h⟩
  by_cases hdialect : option = "dialect"
  · subst hdialect
    cases hd : Dialect.ofName? value with
    | none => simp [addLong, hd] at h
    | some d =>
      obtain rfl := name_of_ofName? hd
      exact .inr ⟨d, rfl, rfl, addLong_dialect o₀ d ▸ h⟩
  · simp [addLong, hconfig, hdialect] at h

theorem exists_spells_cons {r : Request} {texts arguments : List String} {o₀ o₁ o : Options}
    (hr : r.Spelled texts) (hask : o₀.ask r = some o₁)
    (h : ∃ rs, Spells rs arguments ∧ rs.foldlM ask o₁ = some o) :
    ∃ rs, Spells rs (texts ++ arguments) ∧ rs.foldlM ask o₀ = some o := by
  obtain ⟨rs, hspells, hrun⟩ := h
  refine ⟨r :: rs, .cons hr hspells, ?_⟩
  rw [List.foldlM_cons, hask]
  exact hrun

/-- A command line that is accepted is spelled right. -/
theorem exists_spells {o₀ o : Options} {arguments : List String} (h : o₀.add arguments = some o) :
    ∃ rs, Spells rs arguments ∧ rs.foldlM ask o₀ = some o := by
  fun_induction add o₀ arguments with
  | case1 o₀ => exact ⟨[], .nil, h⟩
  | case2 o₀ text arguments htext =>
    have hshape := shape_of_ofText htext
    cases hshape
    have hnames := ne_empty_of_addHeaders h
    exact ⟨_, .headers hnames, addHeaders_eq_foldlM o₀ hnames ▸ h⟩
  | case3 o₀ text arguments htext ih =>
    obtain ⟨o₁, hadd, hrest⟩ := Option.bind_eq_some_iff.mp h
    obtain ⟨hne, hask⟩ := ask_of_addHeader hadd
    exact exists_spells_cons (.header (ofText_eq_header_iff.mp htext) hne) hask (ih o₁ hrest)
  | case4 o₀ text arguments name htext ih =>
    have hshape := shape_of_ofText htext
    cases hshape with
    | defineEquals => exact exists_spells_cons (.defineEquals name) rfl (ih h)
    | defineJoined hne hhead => exact exists_spells_cons (.defineJoined hne hhead) rfl (ih h)
  | case6 o₀ text htext name arguments hvalue ih =>
    have hshape := shape_of_ofText htext
    cases hshape
    exact exists_spells_cons (.defineNext (isValue_iff.mp hvalue)) rfl (ih h)
  | case8 o₀ text arguments option value htext ih =>
    obtain ⟨o₁, hadd, hrest⟩ := Option.bind_eq_some_iff.mp h
    have hshape := shape_of_ofText htext
    cases hshape
    rcases ask_of_addLong hadd with ⟨rfl, hne, hask⟩ | ⟨d, rfl, rfl, hask⟩
    · exact exists_spells_cons (.configEquals hne) hask (ih o₁ hrest)
    · exact exists_spells_cons (.dialectEquals d) hask (ih o₁ hrest)
  | case10 o₀ text arguments hnot htext ih =>
    have hshape := shape_of_ofText htext
    cases hshape
    exact exists_spells_cons .cplusplus (by simp [ask, hnot]) (ih h)
  | case12 o₀ text option htext hne value arguments hvalue ih =>
    obtain ⟨o₁, hadd, hrest⟩ := Option.bind_eq_some_iff.mp h
    have hshape := shape_of_ofText htext
    cases hshape
    rcases ask_of_addLong hadd with ⟨rfl, hfile, hask⟩ | ⟨d, rfl, rfl, hask⟩
    · exact exists_spells_cons (.configNext (isValue_iff.mp hvalue) hfile) hask (ih o₁ hrest)
    · exact exists_spells_cons (.dialectNext d) hask (ih o₁ hrest)
  | _ => cases h

/-- The command lines that are accepted are those that are spelled right and ask for nothing
twice but names to define.  The options have what is asked for. -/
theorem ofArguments_eq_some_iff {arguments : List String} {o : Options} :
    ofArguments arguments = some o ↔ ∃ rs, Spells rs arguments ∧ o.Collects rs := by
  simp only [← extends_empty_iff, ← foldlM_ask_eq_some_iff]
  constructor
  · exact exists_spells
  · intro ⟨rs, hspells, hrun⟩
    rw [ofArguments, add_of_spells hspells, hrun]

end Options

end EngineHeader.CommandLine
