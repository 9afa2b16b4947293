import EngineHeader.Directive.Tree

/-!
# What a directive line asks for

A directive line has an instruction or a fault.  If it has an instruction then its parts are those
that the instruction needs (`Line.gives_of_instruction`).  If it has a fault then the fault names
the directive of the line (`Line.faulty_of_instruction`).

A step of the builder follows the instruction of a line (`Builder.step_line_eq_ok`).  It fails only
at a directive line, and the fault is about this (`Builder.step_eq_error`).
-/

namespace EngineHeader.Directive

open Text

/-! ## Results in sequence -/

section

variable {ε α β : Type} {r : Except ε α} {f : α → Except ε β}

theorem exists_of_bind_eq_ok {b : β} (h : r >>= f = .ok b) : ∃ a, r = .ok a ∧ f a = .ok b := by
  cases r with
  | error e => cases h
  | ok a => exact ⟨a, rfl, h⟩

theorem of_bind_eq_error {e : ε} (h : r >>= f = .error e) :
    r = .error e ∨ ∃ a, r = .ok a ∧ f a = .error e := by
  cases r with
  | error e' =>
    cases h
    exact .inl rfl
  | ok a => exact .inr ⟨a, rfl, h⟩

end

theorem Keyword.eq_text_of_ofText? {text : String} {k : Keyword} (h : ofText? text = some k) :
    text = k.text := by
  have htext := List.find?_some h
  exact (of_decide_eq_true htext).symm

namespace Line

variable {l : Line} {k : Keyword} {c : Condition}

/-! ## Instructions -/

/-- The parts of a line that has this instruction. -/
inductive Gives : Line → Instruction → Prop where
  | nothing : Gives ⟨"", none, ""⟩ .nothing
  | define {name rest : String} : (∀ c ∈ name.toList.head?, c.isDigit = false) →
    Gives ⟨"define", some (.word name), rest⟩ (.leaf (.define name))
  | angled {name : String} :
    Gives ⟨"include", some (.angled name), ""⟩ (.leaf (.includeFile name true))
  | quoted {name : String} :
    Gives ⟨"include", some (.quoted name), ""⟩ (.leaf (.includeFile name false))
  | enter {c : Condition} {name : String} : (∀ c ∈ name.toList.head?, c.isDigit = false) →
    Gives ⟨c.keyword.text, some (.word name), ""⟩ (.enter c name)
  | leave {argument? : Option Argument} {rest : String} :
    Gives ⟨"endif", argument?, rest⟩ (.leave (isBare ⟨"endif", argument?, rest⟩))

theorem nameFor_eq_ok {name : String} (h : l.nameFor k = .ok name) :
    l.argument? = some (.word name) ∧ ∀ c ∈ name.toList.head?, c.isDigit = false := by
  rw [nameFor] at h
  split at h
  · next word hword =>
    split at h
    · cases h
    · next hdigit =>
      cases h
      refine ⟨hword, fun c hc => ?_⟩
      rw [hc] at hdigit
      exact Bool.not_eq_true _ ▸ hdigit
  · cases h

theorem complete_eq_ok {α : Type} {a b : α} (h : l.complete k a = .ok b) : l.rest = "" ∧ b = a := by
  rw [complete] at h
  split at h
  · next hrest =>
    cases h
    exact ⟨hrest, rfl⟩
  · cases h

theorem eq_of_isBare (h : l.isBare = true) : l = ⟨l.name, none, ""⟩ := by
  obtain ⟨name, argument?, rest⟩ := l
  simp only [isBare, Bool.and_eq_true, Option.isNone_iff_eq_none, beq_iff_eq] at h
  rw [h.1, h.2]

theorem gives_of_opening {i : Instruction} (hname : l.name = c.keyword.text)
    (h : l.opening c = .ok i) : l.Gives i := by
  obtain ⟨name, hword, h⟩ := exists_of_bind_eq_ok h
  obtain ⟨hrest, rfl⟩ := complete_eq_ok h
  obtain ⟨harg, hdigit⟩ := nameFor_eq_ok hword
  obtain ⟨_, argument?, rest⟩ := l
  cases hname
  cases harg
  cases hrest
  exact .enter hdigit

/-- An instruction is that of a line with the parts that the instruction needs. -/
theorem gives_of_instruction {i : Instruction} (h : l.instruction = .ok i) : l.Gives i := by
  rw [instruction] at h
  split at h
  · next hname =>
    split at h
    · next hbare =>
      cases h
      rw [eq_of_isBare hbare, hname]
      exact .nothing
    · cases h
  split at h
  · cases h
  · next hk =>
    have hname := Keyword.eq_text_of_ofText? hk
    obtain ⟨_, argument?, rest⟩ := l
    cases hname
    cases h
    exact .leave
  · next hk => exact gives_of_opening (c := .defined) (Keyword.eq_text_of_ofText? hk) h
  · next hk => exact gives_of_opening (c := .undefined) (Keyword.eq_text_of_ofText? hk) h
  · next hk =>
    have hname := Keyword.eq_text_of_ofText? hk
    obtain ⟨name, hword, hleaf⟩ := exists_of_bind_eq_ok h
    obtain ⟨harg, hdigit⟩ := nameFor_eq_ok hword
    cases hleaf
    obtain ⟨_, argument?, rest⟩ := l
    cases hname
    cases harg
    exact .define hdigit
  · next hk =>
    have hname := Keyword.eq_text_of_ofText? hk
    obtain ⟨_, argument?, rest⟩ := l
    cases hname
    split at h
    · next harg =>
      obtain ⟨hrest, rfl⟩ := complete_eq_ok h
      cases harg
      cases hrest
      exact .angled
    · next harg =>
      obtain ⟨hrest, rfl⟩ := complete_eq_ok h
      cases harg
      cases hrest
      exact .quoted
    · cases h

end Line

/-! ## Faults -/

/-- The name of the directive that a fault is about.  It is empty where the line has none. -/
def Fault.directive : Fault → String
  | .unmatchedEndif => Keyword.endif.text
  | .unterminated condition _ => condition.keyword.text
  | .missingArgument directive => directive.text
  | .missingName => ""
  | .unsupported name => name
  | .trailingText directive => directive.text

/-- The fault is about this directive, and it is none that shows only at the end of the text. -/
structure Line.Faulty (l : Line) (fault : Fault) : Prop where
  name : l.name = fault.directive
  seen : ∀ c n, fault ≠ .unterminated c n

namespace Line

variable {l : Line} {k : Keyword} {c : Condition} {fault : Fault}

theorem faulty_missingArgument (hname : l.name = k.text) : l.Faulty (.missingArgument k) :=
  ⟨hname, fun _ _ heq => nomatch heq⟩

theorem faulty_of_nameFor (hname : l.name = k.text) (h : l.nameFor k = .error fault) :
    l.Faulty fault := by
  rw [nameFor] at h
  split at h
  · split at h
    · cases h
      exact faulty_missingArgument hname
    · cases h
  · cases h
    exact faulty_missingArgument hname

theorem faulty_of_complete {α : Type} {a : α} (hname : l.name = k.text)
    (h : l.complete k a = .error fault) : l.Faulty fault := by
  rw [complete] at h
  split at h
  · cases h
  · cases h
    exact ⟨hname, fun _ _ heq => nomatch heq⟩

theorem faulty_of_opening (hname : l.name = c.keyword.text) (h : l.opening c = .error fault) :
    l.Faulty fault := by
  rcases of_bind_eq_error h with hword | ⟨name, _, hrest⟩
  · exact faulty_of_nameFor hname hword
  · exact faulty_of_complete hname hrest

/-- The fault of a line is about its directive. -/
theorem faulty_of_instruction (h : l.instruction = .error fault) : l.Faulty fault := by
  rw [instruction] at h
  split at h
  · next hname =>
    split at h
    · cases h
    · cases h
      exact ⟨hname, fun _ _ heq => nomatch heq⟩
  split at h
  · cases h
    exact ⟨rfl, fun _ _ heq => nomatch heq⟩
  · cases h
  · next hk => exact faulty_of_opening (c := .defined) (Keyword.eq_text_of_ofText? hk) h
  · next hk => exact faulty_of_opening (c := .undefined) (Keyword.eq_text_of_ofText? hk) h
  · next hk =>
    rcases of_bind_eq_error h with hword | ⟨name, _, hleaf⟩
    · exact faulty_of_nameFor (Keyword.eq_text_of_ofText? hk) hword
    · cases hleaf
  · next hk =>
    have hname := Keyword.eq_text_of_ofText? hk
    split at h
    · exact faulty_of_complete hname h
    · exact faulty_of_complete hname h
    · cases h
      exact faulty_missingArgument hname

end Line

/-! ## Steps of the builder -/

namespace Builder

variable {b b' : Builder} {p : Position} {l : Line} {i : Instruction}

/-- What a step over a directive line is made of. -/
theorem step_line_eq_ok (h : b.step ⟨.line l, p⟩ = .ok b') :
    ∃ i, l.Gives i ∧ b.follow p i = .ok b' := by
  replace h : (l.instruction >>= b.follow p).mapError (Error.directive p) = .ok b' := h
  cases hrun : l.instruction >>= b.follow p with
  | error fault =>
    rw [hrun] at h
    cases h
  | ok b'' =>
    rw [hrun] at h
    cases h
    obtain ⟨i, hi, hfollow⟩ := exists_of_bind_eq_ok hrun
    exact ⟨i, Line.gives_of_instruction hi, hfollow⟩

/-- Following an instruction fails only where a block is closed. -/
theorem faulty_of_follow {fault : Fault} (hi : l.Gives i) (h : b.follow p i = .error fault) :
    l.Faulty fault := by
  cases hi with
  | nothing => cases h
  | define _ => cases h
  | angled => cases h
  | quoted => cases h
  | enter _ => cases h
  | leave =>
    rw [follow] at h
    split at h
    · cases h
      exact ⟨rfl, fun _ _ heq => nomatch heq⟩
    split at h
    · cases h
    · cases h
      exact ⟨rfl, fun _ _ heq => nomatch heq⟩

/-- A step fails only at a directive line, and the fault is about this. -/
theorem step_eq_error {s : Segment} {e : Error} (h : b.step s = .error e) :
    ∃ line p fault, s = ⟨.line line, p⟩ ∧ e = .directive p fault ∧ line.Faulty fault := by
  obtain ⟨content, p⟩ := s
  cases content with
  | source text => cases h
  | line l =>
    replace h : (l.instruction >>= b.follow p).mapError (Error.directive p) = .error e := h
    cases hrun : l.instruction >>= b.follow p with
    | error fault =>
      rw [hrun] at h
      cases h
      refine ⟨l, p, fault, rfl, rfl, ?_⟩
      rcases of_bind_eq_error hrun with hi | ⟨i, hi, hfollow⟩
      · exact Line.faulty_of_instruction hi
      · exact faulty_of_follow (Line.gives_of_instruction hi) hfollow
    | ok b' =>
      rw [hrun] at h
      cases h

end Builder

end EngineHeader.Directive
