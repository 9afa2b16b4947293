import EngineHeader.Proofs.Directive.Ending
import EngineHeader.Proofs.Directive.Event
import EngineHeader.Proofs.Directive.Instruction

/-!
# The source texts of a tree

The tree of a header holds the source texts of its segments and no others.  So what is known
of the source text of each segment is known of each in the tree, at any depth
(`AllSources`).  The builder keeps it in every step, since a directive line holds no source
text.

The last segment has a place of its own.  Source text that comes last stands behind
everything else in the tree, since all blocks are closed by then.  That is where a comment may
be left open (`sources_ofText`).
-/

namespace EngineHeader.Directive

open Text

/-! ## Source texts at any depth -/

/-- Each source text in the directives, at any depth, has the property. -/
def AllSources (P : String → Prop) (ds : List Directive) : Prop :=
  ∀ x, .source x ∈ linearAll ds → P x

variable {P : String → Prop} {d : Directive} {ds es : List Directive}

theorem allSources_nil : AllSources P [] := fun _ h => nomatch h

theorem allSources_append : AllSources P (ds ++ es) ↔ AllSources P ds ∧ AllSources P es := by
  simp only [AllSources, linearAll_append, List.mem_append, or_imp, forall_and]

theorem allSources_cons : AllSources P (d :: ds) ↔ AllSources P [d] ∧ AllSources P ds :=
  @allSources_append P [d] ds

theorem AllSources.reverse (h : AllSources P ds) : AllSources P ds.reverse := by
  induction ds with
  | nil => exact h
  | cons d ds ih =>
    obtain ⟨hd, hds⟩ := allSources_cons.mp h
    rw [List.reverse_cons]
    exact allSources_append.mpr ⟨ih hds, hd⟩

theorem allSources_source {x : String} : AllSources P [.source x] ↔ P x := by
  simp [AllSources, linearAll, linear]

theorem allSources_block {condition : Condition} {name : String} {body : List Directive} :
    AllSources P [.block condition name body] ↔ AllSources P body := by
  simp [AllSources, linearAll, linear]

/-! ## What the builder keeps -/

/-- Each source text that the builder holds has the property. -/
structure Builder.AllSources (P : String → Prop) (b : Builder) : Prop where
  blocks : ∀ o ∈ b.blocks, Directive.AllSources P o.body
  outside : Directive.AllSources P b.outside

namespace Builder

variable {b b' : Builder}

theorem AllSources.add (h : b.AllSources P) (hd : Directive.AllSources P [d]) :
    (b.add d).AllSources P := by
  obtain ⟨blocks, outside⟩ := b
  cases blocks with
  | nil => exact ⟨List.forall_mem_nil _, allSources_cons.mpr ⟨hd, h.outside⟩⟩
  | cons inner outer =>
    obtain ⟨hinner, houter⟩ := List.forall_mem_cons.mp h.blocks
    refine ⟨List.forall_mem_cons.mpr ⟨?_, houter⟩, h.outside⟩
    exact allSources_cons.mpr ⟨hd, hinner⟩

/-- A directive line holds no source text. -/
theorem allSources_of_gives {l : Line} (h : l.Gives (.leaf d)) : Directive.AllSources P [d] := by
  cases h with
  | define _ => simp [Directive.AllSources, linearAll, linear]
  | angled => simp [Directive.AllSources, linearAll, linear]
  | quoted => simp [Directive.AllSources, linearAll, linear]

theorem AllSources.follow {p : Position} {i : Instruction} (h : b.AllSources P)
    (hi : ∀ d, i = .leaf d → Directive.AllSources P [d]) (heq : b.follow p i = .ok b') :
    b'.AllSources P := by
  cases i with
  | nothing =>
    cases heq
    exact h
  | leaf d =>
    cases heq
    exact h.add (hi d rfl)
  | enter condition name =>
    cases heq
    exact ⟨List.forall_mem_cons.mpr ⟨allSources_nil, h.blocks⟩, h.outside⟩
  | leave bare =>
    obtain ⟨blocks, outside⟩ := b
    cases blocks with
    | nil => cases heq
    | cons inner outer =>
      obtain ⟨hinner, houter⟩ := List.forall_mem_cons.mp h.blocks
      have houtside : Builder.AllSources P ⟨outer, outside⟩ := ⟨houter, h.outside⟩
      rw [Builder.follow] at heq
      dsimp only at heq
      split at heq
      · cases heq
        exact houtside.add (allSources_block.mpr hinner.reverse)
      · cases heq

theorem AllSources.step {s : Segment} (h : b.AllSources P)
    (hs : ∀ x, s.content = .source x → P x) (heq : b.step s = .ok b') : b'.AllSources P := by
  obtain ⟨content, p⟩ := s
  cases content with
  | source x =>
    cases heq
    exact h.add (allSources_source.mpr (hs x rfl))
  | line l =>
    obtain ⟨i, hi, hfollow⟩ := step_line_eq_ok heq
    exact h.follow (fun d hd => allSources_of_gives (hd ▸ hi)) hfollow

/-- Over some segments, the builder holds their source texts and those that it held. -/
theorem AllSources.foldlM_step {ss : List Segment} (h : b.AllSources P)
    (hss : ∀ s ∈ ss, ∀ x, s.content = .source x → P x)
    (heq : ss.foldlM Builder.step b = .ok b') : b'.AllSources P := by
  induction ss generalizing b with
  | nil =>
    cases heq
    exact h
  | cons s ss ih =>
    obtain ⟨hs, hss⟩ := List.forall_mem_cons.mp hss
    rw [List.foldlM_cons] at heq
    obtain ⟨b'', hstep, hrun⟩ := exists_of_bind_eq_ok heq
    exact ih (h.step hs hstep) hss hrun

theorem finish_eq_ok_iff : b.finish = .ok ds ↔ b.blocks = [] ∧ b.outside.reverse = ds := by
  obtain ⟨blocks, outside⟩ := b
  cases blocks with
  | nil => simp [finish]
  | cons inner outer => simp [finish]

end Builder

/-! ## Trees of headers -/

/-- A header has a tree if its scan comes to the end of the text and the builder to the end
of the segments, with no block open. -/
theorem ofText_eq_ok_iff {source : String} :
    ofText source = .ok ds ↔ (Segment.scanText source).error? = none ∧
      ∃ b : Builder, (Segment.scanText source).items.foldlM Builder.step .empty = .ok b ∧
        b.blocks = [] ∧ b.outside.reverse = ds := by
  rw [ofText, ofScan]
  cases hrun : (Segment.scanText source).items.foldlM Builder.step .empty with
  | error e => simp [bind, Except.bind]
  | ok b =>
    cases he : (Segment.scanText source).error? with
    | some e => simp [bind, Except.bind]
    | none => simp [bind, Except.bind, Builder.finish_eq_ok_iff]

/-- The last segment is a directive line, and it leaves a comment open. -/
def EndsInOpenLine (source : String) : Prop :=
  ∃ front line, source.toList = front ++ '#' :: line ∧ leavesOpen line = true ∧
    (Segment.scanText source).items.getLast? =
      some ⟨.line (.ofText line), Position.start.advance front⟩

/-- In the tree of a header each source text is a closed span, or the last one is not and
stands behind all others.  Without the second, only a last directive line can leave a comment
open. -/
theorem sources_ofText {source : String} (h : ofText source = .ok ds) :
    AllSources (fun x => ClosedSpan x.toList) ds ∧
        (leavesOpen source.toList = true → EndsInOpenLine source) ∨
      ∃ front x, ds = front ++ [.source x] ∧ OpenSpan x.toList ∧
        AllSources (fun x => ClosedSpan x.toList) front := by
  obtain ⟨hnone, b, hrun, hblocks, rfl⟩ := ofText_eq_ok_iff.mp h
  have hempty : Builder.empty.AllSources fun x => ClosedSpan x.toList :=
    ⟨List.forall_mem_nil _, allSources_nil⟩
  obtain ⟨ss, hitems, hending⟩ := ending [] (.ofText source)
  replace hitems : (Segment.scanText source).items = ss := hitems
  rw [hitems] at hrun
  cases hending with
  | error he => exact absurd hnone he
  | closed hss hopen =>
    refine .inl ⟨(hempty.foldlM_step hss hrun).outside.reverse, fun htrue => ?_⟩
    replace hopen : leavesOpen source.toList = false := hopen
    rw [htrue] at hopen
    cases hopen
  | @line front m line hss hline hopen heq =>
    refine .inl ⟨(hempty.foldlM_step hss hrun).outside.reverse, fun _ => ?_⟩
    refine ⟨source.toList.take m, line, ?_, hopen, ?_⟩
    · replace hline : source.toList.drop m = '#' :: line := hline
      rw [← hline, List.take_append_drop]
    · rw [hitems, heq, List.getLast?_concat]
      rfl
  | @source front x p hss hx heq =>
    rw [heq, List.foldlM_append] at hrun
    obtain ⟨b₀, hfront, hlast⟩ := exists_of_bind_eq_ok hrun
    obtain rfl : b₀.add (.source x) = b := by
      cases hlast
      rfl
    have hb₀ := hempty.foldlM_step hss hfront
    obtain ⟨blocks, outside⟩ := b₀
    cases blocks with
    | nil => exact .inr ⟨outside.reverse, x, List.reverse_cons, hx, hb₀.outside.reverse⟩
    | cons inner outer => cases hblocks

end EngineHeader.Directive
