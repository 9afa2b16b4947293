import EngineHeader.Proofs.Directive.Blocks
import EngineHeader.Proofs.Directive.Exact
import EngineHeader.Proofs.Directive.Sources

/-!
# Where the faults of a header are

A header has no tree if its scan fails, if a step of the builder does, or if a block is open at
the end.  The builder fails at the line that it looks at, and the fault names the directive of this
line (`Builder.foldlM_step_eq_error`).  If it comes to the end then each of the segments may stand
alone (`Builder.acceptable_of_foldlM`).  So the segments have events, and what is known of the
events tells that the block at fault is not closed (`isAt_of_finish`).
-/

namespace EngineHeader.Directive

open Text

/-! ## Runs that fail -/

/-- A run fails at one of the segments. -/
theorem Builder.foldlM_step_eq_error {b : Builder} {ss : List Segment} {e : Error}
    (h : ss.foldlM Builder.step b = .error e) :
    ∃ front line p behind fault, ss = front ++ ⟨.line line, p⟩ :: behind ∧
      e = .directive p fault ∧ line.Faulty fault := by
  induction ss generalizing b with
  | nil => cases h
  | cons s ss ih =>
    rw [List.foldlM_cons] at h
    rcases of_bind_eq_error h with hstep | ⟨b', _, hrun⟩
    · obtain ⟨line, p, fault, rfl, he, hfaulty⟩ := step_eq_error hstep
      exact ⟨[], line, p, ss, fault, rfl, he, hfaulty⟩
    · obtain ⟨front, line, p, behind, fault, rfl, he, hfaulty⟩ := ih hrun
      exact ⟨s :: front, line, p, behind, fault, rfl, he, hfaulty⟩

/-! ## Segments that may stand alone -/

theorem isWordStart_of_isWordPart {c : Char} (h : isWordPart c = true)
    (hdigit : c.isDigit = false) : isWordStart c = true := by
  rw [isWordPart, Char.isAlphanum, hdigit, Bool.or_false] at h
  exact h

/-- An argument that is a word is made of the characters of words. -/
theorem exists_of_readArgument {text : List Char} {name : String}
    (h : (readArgument text).1 = some (.word name)) :
    ∃ c cs, name.toList = c :: cs ∧ isWordPart c = true ∧ ∀ x ∈ cs, isWordPart x = true := by
  unfold readArgument at h
  split at h
  · cases h
  split at h
  · next c inside hc =>
    cases h
    refine ⟨c, inside.takeWhile isWordPart, ?_, hc, fun x hx => List.mem_takeWhile_imp hx⟩
    rw [String.toList_ofList, List.takeWhile_cons, if_pos hc]
  split at h
  · split at h
    · cases h
    · cases h
  split at h
  · split at h
    · cases h
    · cases h
  · cases h

/-- The argument of a line that is cut from text is an identifier, if it is a word that does not
begin with a digit. -/
theorem Line.isIdentifier_of_ofText {text : List Char} {name : String}
    (h : (ofText text).argument? = some (.word name))
    (hdigit : ∀ c ∈ name.toList.head?, c.isDigit = false) : IsIdentifier name := by
  obtain ⟨c, cs, hname, hc, hcs⟩ := exists_of_readArgument h
  refine ⟨c, cs, hname, isWordStart_of_isWordPart hc (hdigit c ?_), hcs⟩
  rw [hname]
  rfl

/-- A line that is cut from text and has an instruction may stand alone, unless it closes a block
and has text behind it. -/
theorem Line.Gives.exists_asks {text : List Char} {i : Instruction}
    (h : (Line.ofText text).Gives i) (hi : i ≠ .leave false) : ∃ e, (Line.ofText text).Asks e := by
  have hword {name : String} (hname : (Line.ofText text).argument? = some (.word name)) :=
    Line.isIdentifier_of_ofText hname
  generalize Line.ofText text = l at h hword
  cases h with
  | nothing => exact ⟨_, .nothing⟩
  | define hdigit => exact ⟨_, .define (hword rfl hdigit)⟩
  | angled => exact ⟨_, .angled⟩
  | quoted => exact ⟨_, .quoted⟩
  | @enter c name hdigit =>
    cases c with
    | defined => exact ⟨_, .ifdef (hword rfl hdigit)⟩
    | undefined => exact ⟨_, .ifndef (hword rfl hdigit)⟩
  | @leave argument? rest =>
    have hbare : Line.isBare ⟨"endif", argument?, rest⟩ = true := by
      by_contra hbare
      exact hi (congrArg Instruction.leave (Bool.not_eq_true _ ▸ hbare))
    rw [Line.eq_of_isBare hbare]
    exact ⟨_, .endif⟩

variable {source : String}

/-- A closing line with text behind it is not followed. -/
theorem Builder.ne_leave_of_follow {b b' : Builder} {p : Position} {i : Instruction}
    (h : b.follow p i = .ok b') : i ≠ .leave false := by
  rintro rfl
  rw [follow] at h
  split at h
  · cases h
  · cases h

/-- If the builder comes to the end then each of the segments may stand alone. -/
theorem Builder.acceptable_of_foldlM {b b' : Builder} {ss : List Segment}
    (hss : ∀ s ∈ ss, s.IsAt source) (h : ss.foldlM Builder.step b = .ok b') :
    ∀ s ∈ ss, s.Acceptable := by
  induction ss generalizing b with
  | nil => exact List.forall_mem_nil _
  | cons s ss ih =>
    obtain ⟨hs, hss⟩ := List.forall_mem_cons.mp hss
    rw [List.foldlM_cons] at h
    obtain ⟨b'', hstep, hrun⟩ := exists_of_bind_eq_ok h
    refine List.forall_mem_cons.mpr ⟨?_, ih hss hrun⟩
    cases hs with
    | source _ => exact ⟨_, .source⟩
    | line _ =>
      obtain ⟨i, hi, hfollow⟩ := step_line_eq_ok hstep
      obtain ⟨e, he⟩ := hi.exists_asks (ne_leave_of_follow hfollow)
      exact ⟨e, .line he⟩

/-! ## Faults of a header -/

/-- Where an event is asked for, its segment is. -/
theorem Stream.exists_segment {ss : List Segment} {front back : List Placed} {p : Position}
    {e : Event} (h : Stream ss (front ++ ⟨p, e⟩ :: back)) :
    ∃ before s behind, ss = before ++ s :: behind ∧ s.position = p ∧ s.Asks (some e) ∧
      Stream behind back := by
  generalize hes : front ++ ⟨p, e⟩ :: back = es at h
  induction h generalizing front with
  | nil => exact absurd hes (by simp)
  | @skip s ss es hs _ ih =>
    obtain ⟨before, t, behind, rfl, ht⟩ := ih hes
    exact ⟨s :: before, t, behind, rfl, ht⟩
  | @cons s ss e' es hs hss ih =>
    cases front with
    | nil =>
      cases hes
      exact ⟨[], s, ss, rfl, rfl, hs, hss⟩
    | cons first front =>
      obtain ⟨_, hes⟩ := List.cons.inj hes
      obtain ⟨before, t, behind, rfl, ht⟩ := ih hes
      exact ⟨s :: before, t, behind, rfl, ht⟩

/-- A directive line of the source begins at the position, and the fault names its directive.  If
the fault is that a block is left open, then this line opens it and none behind closes it. -/
def Fault.IsAt (source : String) (p : Position) (fault : Fault) : Prop :=
  ∃ front line behind, (Segment.scanText source).items = front ++ ⟨.line line, p⟩ :: behind ∧
    Segment.IsAt source ⟨.line line, p⟩ ∧ line.name = fault.directive ∧
    ∀ c n, fault = .unterminated c n →
      line.argument? = some (.word n) ∧ ∃ es, Stream behind es ∧ ¬ Matched es

theorem Segment.Asks.line_of_enter {s : Segment} {c : Condition} {n : String}
    (h : s.Asks (some (.enter c n))) :
    ∃ line, s = ⟨.line line, s.position⟩ ∧ line.name = c.keyword.text ∧
      line.argument? = some (.word n) := by
  cases h with
  | line hl =>
    cases hl with
    | ifdef _ => exact ⟨_, rfl, rfl, rfl⟩
    | ifndef _ => exact ⟨_, rfl, rfl, rfl⟩

/-- A block that is open at the end is opened by a line that it names, and not closed.  No closing
is at fault, since the builder came to the end. -/
theorem isAt_of_finish {b : Builder} {e : Error} (hs : (Segment.scanText source).error? = none)
    (hrun : (Segment.scanText source).items.foldlM Builder.step .empty = .ok b)
    (hfinish : b.finish = .error e) : ∃ p fault, e = .directive p fault ∧ fault.IsAt source p := by
  have hat := (Segment.scanText_isAt source).1
  obtain ⟨es, hes⟩ := exists_stream (Builder.acceptable_of_foldlM hat hrun)
  have htree : ofText source = .error e := by
    rw [ofText_of_scanned hs, hrun]
    exact hfinish
  rcases ofText_cases hs hes with ⟨t, ht, _⟩ | ⟨_, p, _, _, _, hleave⟩ |
    ⟨front, p, c, n, back, rfl, _, hback, henter⟩
  · exact absurd ht (ofText_ne_ok htree t)
  · rw [htree] at hleave
    cases hleave
    rw [Builder.finish] at hfinish
    split at hfinish
    · cases hfinish
    · cases hfinish
  · rw [htree] at henter
    cases henter
    obtain ⟨before, s, behind, hitems, rfl, hasks, hbehind⟩ := hes.exists_segment
    obtain ⟨line, hline, hname, harg⟩ := hasks.line_of_enter
    rw [hline] at hitems
    refine ⟨_, _, rfl, before, line, behind, hitems, ?_, hname, ?_⟩
    · exact hat _ (hitems ▸ List.mem_append_right _ List.mem_cons_self)
    · rintro _ _ ⟨⟩
      exact ⟨harg, back, hbehind, hback.1.not_matched⟩

/-- What is wrong with the directives of a header is where it is said to be. -/
theorem isAt_of_ofText {e : Error} (h : ofText source = .error e) :
    e.Unrecognized source ∨ ∃ p fault, e = .directive p fault ∧ fault.IsAt source p := by
  obtain ⟨hat, herror⟩ := Segment.scanText_isAt source
  rcases of_bind_eq_error h with hrun | ⟨b, hrun, hend⟩
  · obtain ⟨front, line, p, behind, fault, hitems, rfl, hfaulty⟩ :=
      Builder.foldlM_step_eq_error hrun
    refine .inr ⟨p, fault, rfl, front, line, behind, hitems, ?_, hfaulty.name, ?_⟩
    · exact hat _ (hitems ▸ List.mem_append_right _ List.mem_cons_self)
    · exact fun c n heq => absurd heq (hfaulty.seen c n)
  · split at hend
    · next hs =>
      cases hend
      exact .inl (herror _ hs)
    · next hs => exact .inr (isAt_of_finish hs hrun hend)

end EngineHeader.Directive
