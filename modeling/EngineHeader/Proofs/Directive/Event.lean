import EngineHeader.Directive.Basic
import EngineHeader.Directive.Segment
import Mathlib.Data.List.Induction

/-!
# Events

A tree of directives can be written down as a list of *events*, in the order of the
text: a block is its opening, then the events of its body, then its closing
(`linear`).  On the other side each segment of a header asks for one event, or for
none if it is a directive line with nothing behind its number sign
(`Segment.Asks`).  A line that asks for an event is one that may stand alone: it
has the argument that its directive needs, and nothing that it must not have.

Whether events form a tree is a question of counting.  They are *covered* if no
front part has more closings than openings, and *balanced* if besides there are as
many of both.  An opening is *matched* if a closing stands behind it with
balanced events between the two.

The main statements find closings.  Events that are not covered have a first closing
that is one too many, and the events in front of it are balanced
(`exists_unmatched_leave`).  In balanced events each opening is matched
(`Balanced.matched`).
-/

namespace EngineHeader.Directive

open Text

/-! ## Events of a tree -/

/-- One thing that a header does. -/
inductive Event where
  /-- Source text. -/
  | source (text : String)
  /-- The definition of a name. -/
  | define (name : String)
  /-- The inclusion of a file. -/
  | includeFile (name : String) (angled : Bool)
  /-- The opening of a block. -/
  | enter (condition : Condition) (name : String)
  /-- The closing of a block. -/
  | leave
deriving DecidableEq, Repr

mutual

/-- The events of a directive. -/
def linear : Directive → List Event
  | .source text => [.source text]
  | .define name => [.define name]
  | .includeFile name angled => [.includeFile name angled]
  | .block condition name body => .enter condition name :: (linearAll body ++ [.leave])

/-- The events of a list of directives. -/
def linearAll : List Directive → List Event
  | [] => []
  | d :: ds => linear d ++ linearAll ds

end

theorem linearAll_append (ds es : List Directive) :
    linearAll (ds ++ es) = linearAll ds ++ linearAll es := by
  induction ds with
  | nil => simp [linearAll]
  | cons d ds ih => simp [linearAll, ih]

/-! ## Events of segments -/

/-- A word that does not begin with a digit. -/
def IsIdentifier (name : String) : Prop :=
  ∃ c cs, name.toList = c :: cs ∧ isWordStart c = true ∧ ∀ x ∈ cs, isWordPart x = true

/-- The directive line may stand alone, and asks for an event, or for none. -/
inductive Line.Asks : Line → Option Event → Prop where
  | nothing : Asks ⟨"", none, ""⟩ none
  | define {name rest : String} :
    IsIdentifier name → Asks ⟨"define", some (.word name), rest⟩ (some (.define name))
  | ifdef {name : String} :
    IsIdentifier name → Asks ⟨"ifdef", some (.word name), ""⟩ (some (.enter .defined name))
  | ifndef {name : String} :
    IsIdentifier name → Asks ⟨"ifndef", some (.word name), ""⟩ (some (.enter .undefined name))
  | angled {name : String} :
    Asks ⟨"include", some (.angled name), ""⟩ (some (.includeFile name true))
  | quoted {name : String} :
    Asks ⟨"include", some (.quoted name), ""⟩ (some (.includeFile name false))
  | endif : Asks ⟨"endif", none, ""⟩ (some .leave)

/-- The segment may stand alone, and asks for an event, or for none. -/
inductive Segment.Asks : Segment → Option Event → Prop where
  | source {text : String} {p : Position} : Asks ⟨.source text, p⟩ (some (.source text))
  | line {l : Line} {p : Position} {e : Option Event} : l.Asks e → Asks ⟨.line l, p⟩ e

/-- The segment may stand alone. -/
def Segment.Acceptable (s : Segment) : Prop := ∃ e, s.Asks e

/-- An event and where it is asked for. -/
structure Placed where
  /-- Where its segment begins. -/
  position : Position
  /-- The event. -/
  event : Event
deriving DecidableEq, Repr

/-- The events that segments ask for, in order.  Those that ask for none are left
out. -/
inductive Stream : List Segment → List Placed → Prop where
  | nil : Stream [] []
  | skip {s : Segment} {ss : List Segment} {es : List Placed} :
    s.Asks none → Stream ss es → Stream (s :: ss) es
  | cons {s : Segment} {ss : List Segment} {e : Event} {es : List Placed} :
    s.Asks (some e) → Stream ss es → Stream (s :: ss) (⟨s.position, e⟩ :: es)

/-- Segments that may each stand alone have events. -/
theorem exists_stream {ss : List Segment} (h : ∀ s ∈ ss, s.Acceptable) :
    ∃ es, Stream ss es := by
  induction ss with
  | nil => exact ⟨[], .nil⟩
  | cons s ss ih =>
    obtain ⟨es, hes⟩ := ih fun s hs => h s (List.mem_cons_of_mem _ hs)
    obtain ⟨e, he⟩ := h s List.mem_cons_self
    cases e with
    | none => exact ⟨es, .skip he hes⟩
    | some e => exact ⟨_, .cons he hes⟩

/-- A line asks for one thing only.  It is given twice, so that a directive can be told from another
one. -/
theorem Line.Asks.unique {l k : Line} {e f : Option Event} (he : l.Asks e) (hf : k.Asks f)
    (heq : l = k) : e = f := by
  cases he <;> cases hf <;> simp_all

theorem Segment.Asks.unique {s : Segment} {e f : Option Event} (he : s.Asks e) (hf : s.Asks f) :
    e = f := by
  cases he with
  | source =>
    cases hf
    rfl
  | line he =>
    cases hf with
    | line hf => exact he.unique hf rfl

/-- Segments have their events, and no others. -/
theorem Stream.unique {ss : List Segment} {es fs : List Placed} (he : Stream ss es)
    (hf : Stream ss fs) : es = fs := by
  induction he generalizing fs with
  | nil =>
    cases hf
    rfl
  | skip hnone _ ih =>
    cases hf with
    | skip _ hfs => exact ih hfs
    | cons hsome _ => cases hnone.unique hsome
  | cons hsome _ ih =>
    cases hf with
    | skip hnone _ => cases hsome.unique hnone
    | cons hsome' hfs =>
      cases hsome.unique hsome'
      rw [ih hfs]

/-! ## Counting -/

/-- How many openings there are. -/
def openings (es : List Placed) : Nat :=
  es.countP fun e => match e.event with
    | .enter _ _ => true
    | _ => false

/-- How many closings there are. -/
def closings (es : List Placed) : Nat := es.countP (·.event = .leave)

@[simp] theorem openings_nil : openings [] = 0 := rfl

@[simp] theorem closings_nil : closings [] = 0 := rfl

@[simp] theorem openings_append (es fs : List Placed) :
    openings (es ++ fs) = openings es + openings fs := List.countP_append

@[simp] theorem closings_append (es fs : List Placed) :
    closings (es ++ fs) = closings es + closings fs := List.countP_append

@[simp] theorem openings_enter (p : Position) (c : Condition) (n : String) (es : List Placed) :
    openings (⟨p, .enter c n⟩ :: es) = openings es + 1 := by
  simp [openings]

@[simp] theorem closings_enter (p : Position) (c : Condition) (n : String) (es : List Placed) :
    closings (⟨p, .enter c n⟩ :: es) = closings es := by
  simp [closings]

@[simp] theorem openings_leave (p : Position) (es : List Placed) :
    openings (⟨p, .leave⟩ :: es) = openings es := by
  simp [openings]

@[simp] theorem closings_leave (p : Position) (es : List Placed) :
    closings (⟨p, .leave⟩ :: es) = closings es + 1 := by
  simp [closings]

/-- No front part has more closings than openings. -/
def Covered (es : List Placed) : Prop := ∀ n, closings (es.take n) ≤ openings (es.take n)

/-- No front part has more closings than openings, and there are as many of both. -/
def Balanced (es : List Placed) : Prop := Covered es ∧ closings es = openings es

/-- Behind an opening with `es` behind it stands a closing that matches it. -/
def Matched (es : List Placed) : Prop :=
  ∃ inside p rest, es = inside ++ ⟨p, .leave⟩ :: rest ∧ Balanced inside

theorem Covered.closings_le {es : List Placed} (h : Covered es) : closings es ≤ openings es := by
  have := h es.length
  rwa [List.take_length] at this

theorem Covered.append {es fs : List Placed} (he : Covered es) (hf : Covered fs) :
    Covered (es ++ fs) := by
  intro n
  have h₁ := he n
  have h₂ := hf (n - es.length)
  rw [List.take_append, closings_append, openings_append]
  omega

/-- An opening in front does no harm. -/
theorem Covered.enter {es : List Placed} (h : Covered es) (p : Position) (c : Condition)
    (n : String) : Covered (⟨p, .enter c n⟩ :: es) := by
  intro k
  cases k with
  | zero => simp
  | succ k =>
    have := h k
    rw [List.take_succ_cons, closings_enter, openings_enter]
    omega

theorem Covered.of_append {es fs : List Placed} (h : Covered (es ++ fs)) : Covered es := by
  intro n
  have h := h (min n es.length)
  rwa [List.take_append_of_le_length (Nat.min_le_right ..), ← List.take_eq_take_min] at h

theorem balanced_nil : Balanced [] := ⟨fun n => by simp, rfl⟩

theorem Balanced.append {es fs : List Placed} (he : Balanced es) (hf : Balanced fs) :
    Balanced (es ++ fs) := by
  refine ⟨he.1.append hf.1, ?_⟩
  rw [closings_append, openings_append, he.2, hf.2]

/-- A block around balanced events is balanced. -/
theorem Balanced.block {es : List Placed} (h : Balanced es) (p q : Position) (c : Condition)
    (n : String) : Balanced (⟨p, .enter c n⟩ :: (es ++ [⟨q, .leave⟩])) := by
  constructor
  · intro k
    cases k with
    | zero => simp
    | succ k =>
      have hk := h.1 k
      have hlast : closings (List.take (k - es.length) [⟨q, .leave⟩]) ≤ 1 :=
        Nat.le_trans List.countP_le_length (List.length_take_le' ..)
      rw [List.take_succ_cons, List.take_append, closings_enter, openings_enter, closings_append,
        openings_append]
      omega
  · simp [h.2]

/-- An event that neither opens nor closes is balanced. -/
theorem balanced_singleton {e : Placed} (ho : openings [e] = 0) (hc : closings [e] = 0) :
    Balanced [e] := by
  refine ⟨fun n => ?_, by rw [ho, hc]⟩
  cases n with
  | zero => simp
  | succ n => simp [ho, hc]

/-! ## Finding closings -/

/-- Events that are not covered have a first closing that is one too many. -/
theorem exists_unmatched_leave {es : List Placed} (h : ¬ Covered es) : Matched es := by
  induction es using List.reverseRecOn with
  | nil => exact absurd balanced_nil.1 h
  | append_singleton es e ih =>
    by_cases hes : Covered es
    · have hall : openings (es ++ [e]) < closings (es ++ [e]) := by
        by_contra hle
        refine h fun n => ?_
        rcases Nat.lt_or_ge es.length n with hn | hn
        · rw [List.take_of_length_le (by simp; omega)]
          omega
        · rw [List.take_append_of_le_length hn]
          exact hes n
      have hle := hes.closings_le
      obtain ⟨p, event⟩ := e
      cases event with
      | leave =>
        refine ⟨es, p, [], rfl, hes, ?_⟩
        simp at hall
        omega
      | enter c n => simp at hall; omega
      | source text => simp [openings, closings] at hall hle; omega
      | define name => simp [openings, closings] at hall hle; omega
      | includeFile name angled => simp [openings, closings] at hall hle; omega
    · obtain ⟨inside, p, rest, rfl, hinside⟩ := ih hes
      exact ⟨inside, p, rest ++ [e], by simp, hinside⟩

/-- Covered events have no closing that is one too many. -/
theorem Covered.not_matched {es : List Placed} (h : Covered es) : ¬ Matched es := by
  rintro ⟨inside, p, rest, rfl, _, heq⟩
  have hwhole : Covered (inside ++ [⟨p, .leave⟩] ++ rest) := by simpa using h
  have hle := hwhole.of_append.closings_le
  simp at hle
  omega

/-- In balanced events each opening is matched. -/
theorem Balanced.matched {front back : List Placed} {p : Position} {c : Condition} {n : String}
    (h : Balanced (front ++ ⟨p, .enter c n⟩ :: back)) : Matched back := by
  apply exists_unmatched_leave
  intro hback
  have hfront := h.1.of_append.closings_le
  have hle := hback.closings_le
  have heq := h.2
  simp at heq
  omega

end EngineHeader.Directive
