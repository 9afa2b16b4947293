import EngineHeader.Directive.Tree
import EngineHeader.Proofs.Directive.Event
import Mathlib

/-!
# Blocks

The tree of a header has exactly the blocks that its events ask for, provided that
each of its segments may stand alone.

The invariant of the builder is `Built`.  It speaks of the whole stack of open
blocks.  Outside of them stand balanced events, then comes the opening of the
outermost block, then balanced events again, and so on to the innermost.  The
directives that are held at each level are the tree of the events there.

One step of the builder keeps the invariant (`Built.add`, `Built.enter`,
`Built.leave`), and so does a run (`foldlM_step`), unless it comes to a closing where
no block is open.  `ofText_iff_balanced` draws the conclusions.
-/

namespace EngineHeader.Directive

open Text

/-! ## What a line asks for -/

theorem IsIdentifier.nameFor {name : String} (h : IsIdentifier name) (directive : Keyword)
    (text rest : String) :
    Line.nameFor directive ⟨text, some (.word name), rest⟩ = .ok name := by
  obtain ⟨c, cs, htoList, hc, _⟩ := h
  simp [Line.nameFor, htoList, isDigit_of_isWordStart hc]

/-- The instruction of an event. -/
def Event.instruction : Event → Instruction
  | .source text => .leaf (.source text)
  | .define name => .leaf (.define name)
  | .includeFile name angled => .leaf (.includeFile name angled)
  | .enter condition name => .enter condition name
  | .leave => .leave true

theorem Line.Asks.instruction {l : Line} {e : Option Event} (h : l.Asks e) :
    l.instruction = .ok (e.elim .nothing Event.instruction) := by
  cases h with
  | nothing => rfl
  | define hn =>
    have hk : Keyword.ofText? "define" = some .define := Keyword.ofText?_text .define
    simp only [Line.instruction, hk, hn.nameFor]
    rfl
  | ifdef hn =>
    have hk : Keyword.ofText? "ifdef" = some .ifDefined := Keyword.ofText?_text .ifDefined
    simp only [Line.instruction, hk, Line.opening, hn.nameFor]
    rfl
  | ifndef hn =>
    have hk : Keyword.ofText? "ifndef" = some .ifUndefined := Keyword.ofText?_text .ifUndefined
    simp only [Line.instruction, hk, Line.opening, hn.nameFor]
    rfl
  | angled => rfl
  | quoted => rfl
  | endif => rfl

theorem Segment.Asks.step_none {s : Segment} (h : s.Asks none) (b : Builder) : b.step s = .ok b := by
  cases h with
  | line hl =>
    rw [Builder.step]
    dsimp only
    rw [hl.instruction]
    rfl

theorem Segment.Asks.step_some {s : Segment} {e : Event} (h : s.Asks (some e)) (b : Builder) :
    b.step s = (b.follow s.position e.instruction).mapError (.directive s.position) := by
  cases h with
  | source => rfl
  | line hl =>
    rw [Builder.step]
    dsimp only
    rw [hl.instruction]
    rfl

/-! ## The invariant of the builder -/

/-- The events that a builder has met, where each level holds the tree of the events
there. -/
inductive Built : Builder → List Placed → Prop where
  | outside {ds : List Directive} {es : List Placed} :
    Balanced es → linearAll ds.reverse = es.map Placed.event → Built ⟨[], ds⟩ es
  | inside {inner : OpenBlock} {outer : List OpenBlock} {ds : List Directive}
      {front back : List Placed} :
    Built ⟨outer, ds⟩ front → Balanced back →
    linearAll inner.body.reverse = back.map Placed.event →
    Built ⟨inner :: outer, ds⟩
      (front ++ ⟨inner.position, .enter inner.condition inner.name⟩ :: back)

theorem built_empty : Built .empty [] := .outside balanced_nil rfl

/-- A directive goes to the innermost level. -/
theorem Built.add {b : Builder} {es new : List Placed} {d : Directive} (h : Built b es)
    (hnew : Balanced new) (hd : linear d = new.map Placed.event) : Built (b.add d) (es ++ new) := by
  have hlinear : ∀ (ds : List Directive) (fs : List Placed),
      linearAll ds.reverse = fs.map Placed.event →
      linearAll (d :: ds).reverse = (fs ++ new).map Placed.event := by
    intro ds fs hds
    rw [List.reverse_cons, linearAll_append, hds, List.map_append, ← hd]
    simp [linearAll]
  cases h with
  | outside hes hds => exact .outside (hes.append hnew) (hlinear _ _ hds)
  | inside hfront hback hbody =>
    rw [List.append_assoc, List.cons_append]
    exact .inside hfront (hback.append hnew) (hlinear _ _ hbody)

/-- A block that is opened holds nothing yet. -/
theorem Built.enter {b : Builder} {es : List Placed} (h : Built b es) (p : Position)
    (c : Condition) (n : String) :
    Built ⟨⟨p, c, n, []⟩ :: b.blocks, b.outside⟩ (es ++ [⟨p, .enter c n⟩]) :=
  .inside h balanced_nil rfl

/-- A block that is closed is one directive of the level around it. -/
theorem Built.leave {inner : OpenBlock} {outer : List OpenBlock} {ds : List Directive}
    {es : List Placed} (h : Built ⟨inner :: outer, ds⟩ es) (p : Position) :
    Built (Builder.add ⟨outer, ds⟩ inner.close) (es ++ [⟨p, .leave⟩]) := by
  cases h with
  | inside hfront hback hbody =>
    rw [List.append_assoc, List.cons_append]
    refine hfront.add (hback.block _ _ _ _) ?_
    simp [OpenBlock.close, linear, hbody]

/-- What a builder has met is covered, and one opening for each open block is not
closed. -/
theorem Built.covered {b : Builder} {es : List Placed} (h : Built b es) :
    Covered es ∧ closings es + b.blocks.length = openings es := by
  induction h with
  | outside hes _ => exact hes
  | @inside inner outer ds front back _ hback _ ih =>
    constructor
    · exact ih.1.append (hback.1.enter _ _ _)
    · have hlen : closings front + outer.length = openings front := ih.2
      have heq := hback.2
      simp only [closings_append, closings_enter, openings_append, openings_enter,
        List.length_cons]
      omega

/-! ## Runs of the builder -/

/-- One event: either the builder goes on, or a block is closed and none is open. -/
theorem Built.follow {b : Builder} {es : List Placed} (h : Built b es) (p : Position) (e : Event) :
    (∃ b', b.follow p e.instruction = .ok b' ∧ Built b' (es ++ [⟨p, e⟩])) ∨
      e = .leave ∧ Balanced es ∧ b.follow p e.instruction = .error .unmatchedEndif := by
  cases e with
  | source text => exact .inl ⟨_, rfl, h.add (balanced_singleton rfl rfl) rfl⟩
  | define name => exact .inl ⟨_, rfl, h.add (balanced_singleton rfl rfl) rfl⟩
  | includeFile name angled => exact .inl ⟨_, rfl, h.add (balanced_singleton rfl rfl) rfl⟩
  | enter c n => exact .inl ⟨_, rfl, h.enter p c n⟩
  | leave =>
    obtain ⟨blocks, ds⟩ := b
    cases blocks with
    | nil =>
      cases h with
      | outside hes _ => exact .inr ⟨rfl, hes, rfl⟩
    | cons inner outer => exact .inl ⟨_, rfl, h.leave p⟩

/-- Over the segments of a stream the builder either meets all events, or it comes to
a first closing where no block is open. -/
theorem Built.foldlM_step {b : Builder} {met es : List Placed} {ss : List Segment}
    (h : Built b met) (hs : Stream ss es) :
    (∃ b', ss.foldlM Builder.step b = .ok b' ∧ Built b' (met ++ es)) ∨
      ∃ front p back, es = front ++ ⟨p, .leave⟩ :: back ∧ Balanced (met ++ front) ∧
        ss.foldlM Builder.step b = .error (.directive p .unmatchedEndif) := by
  induction hs generalizing b met with
  | nil => exact .inl ⟨b, rfl, by rwa [List.append_nil]⟩
  | skip hnone _ ih =>
    rw [List.foldlM_cons, hnone.step_none]
    exact ih h
  | @cons s ss e es hsome _ ih =>
    rw [List.foldlM_cons, hsome.step_some]
    rcases h.follow s.position e with ⟨b', heq, hb'⟩ | ⟨rfl, hmet, heq⟩
    · rw [heq]
      rcases ih hb' with ⟨b'', hrun, hb''⟩ | ⟨front, p, back, rfl, hfront, hrun⟩
      · exact .inl ⟨b'', hrun, by simpa using hb''⟩
      · exact .inr ⟨⟨s.position, e⟩ :: front, p, back, rfl, by simpa using hfront, hrun⟩
    · rw [heq]
      exact .inr ⟨[], s.position, es, rfl, by simpa using hmet, rfl⟩

/-! ## Trees of headers -/

/-- The tree of a header, if the scan came to the end of the text. -/
theorem ofText_of_scanned {source : String} (hs : (Segment.scanText source).error? = none) :
    ofText source =
      (Segment.scanText source).items.foldlM Builder.step .empty >>= Builder.finish := by
  rw [ofText, ofScan, hs]

/-- A closing that is one too many behind balanced events. -/
theorem Balanced.not_covered {front back : List Placed} {p : Position} (h : Balanced front) :
    ¬ Covered (front ++ ⟨p, .leave⟩ :: back) :=
  fun hcovered => hcovered.not_matched ⟨front, p, back, rfl, h⟩

/-- A header at fault has no tree. -/
theorem ofText_ne_ok {source : String} {e : Error} (h : ofText source = .error e)
    (t : List Directive) : ofText source ≠ .ok t := by
  intro ht
  rw [h] at ht
  cases ht

/-- There are three ways in which the tree of a header may come out. -/
theorem ofText_cases {source : String} {es : List Placed}
    (hs : (Segment.scanText source).error? = none)
    (hes : Stream (Segment.scanText source).items es) :
    (∃ t, ofText source = .ok t ∧ Balanced es ∧ linearAll t = es.map Placed.event) ∨
      (∃ front p back, es = front ++ ⟨p, .leave⟩ :: back ∧ Balanced front ∧
        ofText source = .error (.directive p .unmatchedEndif)) ∨
      ∃ front p c n back, es = front ++ ⟨p, .enter c n⟩ :: back ∧ Covered front ∧
        Balanced back ∧ ofText source = .error (.directive p (.unterminated c n)) := by
  rw [ofText_of_scanned hs]
  rcases built_empty.foldlM_step hes with ⟨b, hrun, hb⟩ | ⟨front, p, back, rfl, hfront, hrun⟩
  · rw [hrun]
    cases hb with
    | outside hbalanced hlinear => exact .inl ⟨_, rfl, hbalanced, hlinear⟩
    | inside hfront hback _ =>
      exact .inr (.inr ⟨_, _, _, _, _, rfl, hfront.covered.1, hback, rfl⟩)
  · rw [hrun]
    exact .inr (.inl ⟨front, p, back, rfl, hfront, rfl⟩)

/-- A header whose scan comes to the end of the text, and whose segments may each
stand alone, has a tree exactly if its events are balanced, and the tree has these
events.  If a front part has more closings than openings, the first closing that is
one too many is at fault.  Otherwise, if openings are left over, the last of them
that is not matched is at fault. -/
theorem ofText_iff_balanced (source : String) (hs : (Segment.scanText source).error? = none)
    (ha : ∀ s ∈ (Segment.scanText source).items, s.Acceptable) :
    ∃ es, Stream (Segment.scanText source).items es ∧
      ((∃ t, ofText source = .ok t) ↔ Balanced es) ∧
      (∀ t, ofText source = .ok t → linearAll t = es.map Placed.event) ∧
      (¬ Covered es → ∃ front p back, es = front ++ ⟨p, .leave⟩ :: back ∧ Covered front ∧
        ¬ Covered (front ++ [⟨p, .leave⟩]) ∧
        ofText source = .error (.directive p .unmatchedEndif)) ∧
      (Covered es → closings es < openings es →
        ∃ front p c n back, es = front ++ ⟨p, .enter c n⟩ :: back ∧ ¬ Matched back ∧
          (∀ mid q c' n' tail, back = mid ++ ⟨q, .enter c' n'⟩ :: tail → Matched tail) ∧
          ofText source = .error (.directive p (.unterminated c n))) := by
  obtain ⟨es, hes⟩ := exists_stream ha
  refine ⟨es, hes, ?_⟩
  rcases ofText_cases hs hes with ⟨t, ht, hbalanced, hlinear⟩ |
    ⟨front, p, back, rfl, hfront, herr⟩ | ⟨front, p, c, n, back, rfl, hfront, hback, herr⟩
  · refine ⟨⟨fun _ => hbalanced, fun _ => ⟨t, ht⟩⟩, ?_, ?_, ?_⟩
    · intro u hu
      rw [ht] at hu
      cases hu
      exact hlinear
    · intro hnot
      exact absurd hbalanced.1 hnot
    · intro _ hlt
      have := hbalanced.2
      omega
  · have hnot : ¬ Covered (front ++ ⟨p, .leave⟩ :: back) := hfront.not_covered
    refine ⟨⟨fun ⟨t, ht⟩ => absurd ht (ofText_ne_ok herr t), fun h => absurd h.1 hnot⟩,
      fun t ht => absurd ht (ofText_ne_ok herr t), fun _ => ?_, fun h => absurd h hnot⟩
    exact ⟨front, p, back, rfl, hfront.1, hfront.not_covered, herr⟩
  · have hcovered : Covered (front ++ ⟨p, .enter c n⟩ :: back) :=
      hfront.append (hback.1.enter _ _ _)
    have hunbalanced : ¬ Balanced (front ++ ⟨p, .enter c n⟩ :: back) := by
      intro h
      exact hback.1.not_matched h.matched
    refine ⟨⟨fun ⟨t, ht⟩ => absurd ht (ofText_ne_ok herr t), fun h => absurd h hunbalanced⟩,
      fun t ht => absurd ht (ofText_ne_ok herr t), fun h => absurd hcovered h, fun _ _ => ?_⟩
    refine ⟨front, p, c, n, back, rfl, hback.1.not_matched, ?_, herr⟩
    rintro mid q c' n' tail rfl
    exact hback.matched

/-- An inner block is closed, and the outer block, with a null directive in it, is left open.  The
opening of the outer block is at fault. -/
theorem ofText_iff_balanced_left_open :
    Stream (Segment.scanText "#ifndef A\n#\nint x;\n#ifdef B\n#endif\n").items
        [⟨⟨0, 1, 1⟩, .enter .undefined "A"⟩, ⟨⟨12, 3, 1⟩, .source "int x;\n"⟩,
          ⟨⟨19, 4, 1⟩, .enter .defined "B"⟩, ⟨⟨28, 5, 1⟩, .leave⟩] ∧
      (¬ ∃ t, ofText "#ifndef A\n#\nint x;\n#ifdef B\n#endif\n" = .ok t) ∧
      ofText "#ifndef A\n#\nint x;\n#ifdef B\n#endif\n" =
        .error (.directive ⟨0, 1, 1⟩ (.unterminated .undefined "A")) := by
  have hscan : Segment.scanText "#ifndef A\n#\nint x;\n#ifdef B\n#endif\n" =
      ⟨[⟨.line ⟨"ifndef", some (.word "A"), ""⟩, ⟨0, 1, 1⟩⟩, ⟨.line ⟨"", none, ""⟩, ⟨10, 2, 1⟩⟩,
        ⟨.source "int x;\n", ⟨12, 3, 1⟩⟩, ⟨.line ⟨"ifdef", some (.word "B"), ""⟩, ⟨19, 4, 1⟩⟩,
        ⟨.line ⟨"endif", none, ""⟩, ⟨28, 5, 1⟩⟩], none⟩ := by cbv
  have hA : IsIdentifier "A" := ⟨'A', [], rfl, by decide, by simp⟩
  have hB : IsIdentifier "B" := ⟨'B', [], rfl, by decide, by simp⟩
  have hs : (Segment.scanText "#ifndef A\n#\nint x;\n#ifdef B\n#endif\n").error? = none := by
    rw [hscan]
  have ha : ∀ s ∈ (Segment.scanText "#ifndef A\n#\nint x;\n#ifdef B\n#endif\n").items,
      s.Acceptable := by
    rw [hscan]
    intro s h
    simp only [List.mem_cons, List.not_mem_nil, or_false] at h
    rcases h with rfl | rfl | rfl | rfl | rfl
    · exact ⟨_, .line (.ifndef hA)⟩
    · exact ⟨_, .line .nothing⟩
    · exact ⟨_, .source⟩
    · exact ⟨_, .line (.ifdef hB)⟩
    · exact ⟨_, .line .endif⟩
  have hstream : Stream (Segment.scanText "#ifndef A\n#\nint x;\n#ifdef B\n#endif\n").items
      [⟨⟨0, 1, 1⟩, .enter .undefined "A"⟩, ⟨⟨12, 3, 1⟩, .source "int x;\n"⟩,
        ⟨⟨19, 4, 1⟩, .enter .defined "B"⟩, ⟨⟨28, 5, 1⟩, .leave⟩] := by
    rw [hscan]
    exact .cons (.line (.ifndef hA)) (.skip (.line .nothing)
      (.cons .source (.cons (.line (.ifdef hB)) (.cons (.line .endif) .nil))))
  have hinner : Balanced [⟨⟨12, 3, 1⟩, .source "int x;\n"⟩, ⟨⟨19, 4, 1⟩, .enter .defined "B"⟩,
      ⟨⟨28, 5, 1⟩, .leave⟩] :=
    (balanced_singleton rfl rfl).append (balanced_nil.block _ _ _ _)
  obtain ⟨es, hes, htree, -, -, hopen⟩ := ofText_iff_balanced _ hs ha
  obtain rfl := hes.unique hstream
  refine ⟨hstream, fun h => ?_, ?_⟩
  · exact absurd (htree.mp h).2 (by decide)
  · obtain ⟨front, p, c, n, back, heq, hback, -, herror⟩ := hopen (hinner.1.enter _ _ _) (by decide)
    cases front with
    | nil =>
      cases heq
      exact herror
    | cons e front =>
      rw [(List.cons.inj heq).2] at hinner
      exact absurd hinner.matched hback

end EngineHeader.Directive
