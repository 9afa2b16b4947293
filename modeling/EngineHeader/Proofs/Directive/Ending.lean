import EngineHeader.Proofs.Directive.Cutting
import EngineHeader.Proofs.Directive.Span

/-!
# How the segments of a header end

A block comment that is left open ends the segments of a header in one of three ways.  In
front of a segment it is an error.  On a directive line the line takes everything, and it is
the last segment.  So does the source text that it stands in (`ending`).

All other source text is a closed span, since leaving a comment open means to be the last.
The comment that a header leaves open is the one that what is left of it leaves open.
Layout, directive lines and closed spans make no difference to that.
-/

namespace EngineHeader.Directive

open Text

/-! ## Layout and directive lines -/

theorem leavesOpen_drop_layoutUnit {text : List Char} (h : 0 < layoutUnit text) :
    leavesOpen (text.drop (layoutUnit text)) = leavesOpen text := by
  cases text with
  | nil => rfl
  | cons c text =>
    simp only [layoutUnit, List.head?_cons] at h ⊢
    split
    · next hc =>
      have hslash : c ≠ '/' := by
        rintro rfl
        cases hc
      rw [List.drop_succ_cons, List.drop_zero, leavesOpen_cons_of_ne hslash]
    · next hc =>
      rw [if_neg hc, closedComment] at h
      rw [closedComment]
      split at h
      · next hb =>
        cases hn : blockComment? (c :: text) with
        | none =>
          rw [hn] at h
          cases h
        | some n =>
          rw [if_pos hb, Option.getD_some]
          exact leavesOpen_drop_blockComment hn
      · next hb =>
        split at h
        · next hl =>
          rw [if_neg hb, if_pos hl]
          exact leavesOpen_drop_lineLength hl
        · cases h

/-- Layout leaves no comment open. -/
theorem leavesOpen_skipLayout (c : Cursor) :
    leavesOpen (Segment.skipLayout c).rest = leavesOpen c.rest := by
  refine relates_drop_extent (R := fun text rest => leavesOpen rest = leavesOpen text)
    (fun _ => rfl) ?_ c.rest
  intro text rest _ hpos h
  rw [h, leavesOpen_drop_layoutUnit hpos]

theorem leavesOpen_drop_lineUnit {text : List Char} (h : 0 < lineUnit text) :
    leavesOpen (text.drop (lineUnit text)) = leavesOpen text ∨
      leavesOpen text = true ∧ text.drop (lineUnit text) = [] := by
  fun_cases lineUnit text with
  | case1 => cases h
  | case2 rest => cases h
  | case3 rest => exact .inl rfl
  | case4 rest => exact .inl rfl
  | case5 text h₁ h₂ h₃ h₄ =>
    rcases Nat.eq_zero_or_pos (commentLength text) with hzero | hpos
    · obtain ⟨c, text, rfl⟩ := List.exists_cons_of_ne_nil h₁
      rw [hzero]
      exact .inl (leavesOpen_cons (opens_of_commentLength h₁ hzero)).symm
    · rw [Nat.max_eq_right hpos]
      exact leavesOpen_drop_commentLength hpos

theorem leavesOpen_drop_lineUnits (text : List Char) :
    leavesOpen (text.drop (extent lineUnit text)) = leavesOpen text ∨
      leavesOpen text = true ∧ text.drop (extent lineUnit text) = [] := by
  refine (relates_drop_extent (R := fun text rest => (text = [] → rest = []) ∧
    (leavesOpen rest = leavesOpen text ∨ leavesOpen text = true ∧ rest = [])) ?_ ?_ text).2
  · exact fun _ => ⟨id, .inl rfl⟩
  · rintro text rest hne hpos ⟨hnil, h⟩
    refine ⟨fun htext => absurd htext hne, ?_⟩
    rcases leavesOpen_drop_lineUnit hpos with hunit | ⟨hopen, hall⟩
    · rwa [hunit] at h
    · exact .inr ⟨hopen, hnil hall⟩

/-- A directive line and its line feed leave no comment open, or the line is the rest of the
text. -/
theorem leavesOpen_drop_line (text : List Char) :
    leavesOpen (text.drop (extent lineUnit text + 1)) = leavesOpen text ∨
      leavesOpen text = true ∧ text.drop (extent lineUnit text) = [] := by
  refine (leavesOpen_drop_lineUnits text).imp_left fun hline => ?_
  rw [← hline, ← List.drop_drop]
  rcases OnePass.eq_of_lineUnit_eq_zero (unit_drop_extent rfl text) with hend | ⟨rest, hend⟩
  · rw [hend]
    rfl
  · rw [hend]
    rfl

/-- Source text begins where there is neither layout nor a comment that is not closed nor a
number sign. -/
theorem begins_iff {c : Char} {text : List Char} :
    Begins (c :: text) ↔
      layoutUnit (c :: text) = 0 ∧ opensBlock (c :: text) = false ∧ c ≠ '#' := by
  constructor
  · rintro ⟨_, _, heq, hlayout, hhash, hb, hl⟩
    cases heq
    refine ⟨?_, hb, hhash⟩
    simp only [layoutUnit, List.head?_cons, hlayout, closedComment, hb, hl]
    rfl
  · rintro ⟨hunit, hb, hhash⟩
    obtain ⟨hlayout, hclosed⟩ := OnePass.isLayout_of_layoutUnit hunit
    refine ⟨c, text, rfl, hlayout, hhash, hb, ?_⟩
    cases hl : opensLine (c :: text) with
    | false => rfl
    | true =>
      have := lineLength_pos hl
      rw [closedComment, hb, if_neg Bool.false_ne_true, if_pos hl] at hclosed
      omega

/-! ## The last segment -/

/-- The segment is a directive line, or source text that leaves no comment open. -/
def Segment.IsClosed (s : Segment) : Prop := ∀ x, s.content = .source x → ClosedSpan x.toList

theorem Segment.isClosed_line (l : Line) (p : Position) : IsClosed ⟨.line l, p⟩ :=
  fun _ hx => nomatch hx

/-- What is met at a cursor: an error, nothing, one closed segment, or one that takes the rest
of the text and leaves a comment open. -/
inductive Met (c : Cursor) : Except Error (Found c) → Prop where
  | error {e : Error} : Met c (.error e)
  | nothing {behind : Cursor} : leavesOpen c.rest = false → Met c (.ok (.nothing behind))
  | closed {s : Segment} {behind : Cursor} {n : Nat} {h : behind.rest.length < c.rest.length} :
    s.IsClosed → behind = c.move n → leavesOpen behind.rest = leavesOpen c.rest →
    Met c (.ok (.segment s behind h))
  | line {behind : Cursor} {m : Nat} {line : List Char}
      {h : behind.rest.length < c.rest.length} :
    c.rest.drop m = '#' :: line → leavesOpen line = true → behind.rest = [] →
    Met c (.ok (.segment ⟨.line (.ofText line), (c.move m).position⟩ behind h))
  | source {x : String} {p : Position} {behind : Cursor}
      {h : behind.rest.length < c.rest.length} :
    OpenSpan x.toList → behind.rest = [] → Met c (.ok (.segment ⟨.source x, p⟩ behind h))

theorem met_readHere {c : Cursor} (h : layoutUnit c.rest = 0) : Met c (Segment.readHere c) := by
  rw [Segment.readHere]
  split
  · next hnil =>
    refine .nothing ?_
    rw [hnil, leavesOpen_nil]
  next hne =>
  split
  · exact .error
  next hb =>
  obtain ⟨head, rest, heq⟩ := List.exists_cons_of_ne_nil hne
  split
  · next hhash =>
    have hcons : c.rest = '#' :: rest := by
      simp only [heq, List.head_cons] at hhash
      rw [heq, hhash]
    rcases leavesOpen_drop_line c.rest with hline | ⟨hopen, hnil⟩
    · exact .closed (Segment.isClosed_line _ _) rfl hline
    · have hall : (c.rest.take (extent lineUnit c.rest)).tail = rest := by
        rw [List.take_of_length_le (List.drop_eq_nil_iff.mp hnil), hcons, List.tail_cons]
      have hbehind : (c.move (extent lineUnit c.rest + 1)).rest = [] := by
        rw [Cursor.rest_move, ← List.drop_drop, hnil, List.drop_nil]
      rw [hcons, leavesOpen_cons_of_ne (by decide)] at hopen
      dsimp only
      rw [hall]
      exact .line (m := 0) hcons hopen hbehind
  · next hhash =>
    have hbegins : Begins c.rest := by
      simp only [heq, List.head_cons] at hhash
      rw [heq] at h hb ⊢
      exact begins_iff.mpr ⟨h, Bool.not_eq_true _ ▸ hb, hhash⟩
    have hpeek : (c.peek (sourceLength c.rest)).toList = c.rest.take (sourceLength c.rest) :=
      String.toList_ofList
    rcases hbegins.span with ⟨hspan, hcomments⟩ | ⟨hspan, hnil⟩
    · refine .closed ?_ rfl hcomments
      rintro _ ⟨⟩
      rwa [hpeek]
    · exact .source (hpeek ▸ hspan) hnil

theorem met_read (c : Cursor) : Met c (Segment.read c) := by
  have hmet := met_readHere (c := Segment.skipLayout c) (unit_drop_extent rfl c.rest)
  have hcomments := leavesOpen_skipLayout c
  rw [Segment.read]
  generalize Segment.readHere (Segment.skipLayout c) = found at hmet ⊢
  cases hmet with
  | error => exact .error
  | nothing hnil => exact .nothing (hcomments ▸ hnil)
  | closed hs hbehind hrest =>
    exact .closed hs (hbehind.trans (c.move_move _ _)) (hrest.trans hcomments)
  | @line behind m line h hline hopen hnil =>
    have hdrop : c.rest.drop (extent layoutUnit c.rest + m) = '#' :: line := by
      rw [← List.drop_drop]
      exact hline
    have hposition : ((Segment.skipLayout c).move m).position =
        (c.move (extent layoutUnit c.rest + m)).position := by
      rw [← Cursor.move_move]
      rfl
    rw [hposition]
    exact .line hdrop hopen hnil
  | source hx hnil => exact .source hx hnil

/-- How segments end: with an error, closed, or with one that leaves a comment open, which is
a directive line or source text. -/
inductive Ending (c : Cursor) (ss : List Segment) (error? : Option Error) : Prop where
  | error : error? ≠ none → Ending c ss error?
  | closed : (∀ s ∈ ss, s.IsClosed) → leavesOpen c.rest = false → Ending c ss error?
  | line {front : List Segment} {m : Nat} {line : List Char} :
    (∀ s ∈ ss, s.IsClosed) → c.rest.drop m = '#' :: line → leavesOpen line = true →
    ss = front ++ [⟨.line (.ofText line), (c.move m).position⟩] → Ending c ss error?
  | source {front : List Segment} {x : String} {p : Position} :
    (∀ s ∈ front, s.IsClosed) → OpenSpan x.toList → ss = front ++ [⟨.source x, p⟩] →
    Ending c ss error?

/-- A closed segment in front does not change how segments end. -/
theorem Ending.behind {c : Cursor} {n : Nat} {s : Segment} {ss : List Segment}
    {error? : Option Error} (h : Ending (c.move n) ss error?) (hs : s.IsClosed)
    (hrest : leavesOpen (c.move n).rest = leavesOpen c.rest) : Ending c (s :: ss) error? := by
  cases h with
  | error he => exact .error he
  | closed hss hopen => exact .closed (List.forall_mem_cons.mpr ⟨hs, hss⟩) (hrest ▸ hopen)
  | @line front m line hss hline hopen heq =>
    rw [Cursor.rest_move, List.drop_drop] at hline
    rw [Cursor.move_move] at heq
    have hmore : s :: ss = (s :: front) ++ _ := congrArg (s :: ·) heq
    exact .line (List.forall_mem_cons.mpr ⟨hs, hss⟩) hline hopen hmore
  | @source front x p hss hx heq =>
    have hmore : s :: ss = (s :: front) ++ _ := congrArg (s :: ·) heq
    exact .source (List.forall_mem_cons.mpr ⟨hs, hss⟩) hx hmore

/-- Where only layout is left, nothing is found. -/
theorem scanFrom_of_layout {c : Cursor} (h : (Segment.skipLayout c).rest = [])
    (taken : List Segment) : Segment.scanFrom taken c = ⟨taken.reverse, none⟩ := by
  have hhere : Segment.readHere (Segment.skipLayout c) = .ok (.nothing (Segment.skipLayout c)) := by
    rw [Segment.readHere, dif_pos h]
  have hread : Segment.read c = .ok (.nothing (Segment.skipLayout c)) := by
    rw [Segment.read, hhere]
    rfl
  rw [Segment.scanFrom, hread]

theorem scanFrom_nil {c : Cursor} (h : c.rest = []) (taken : List Segment) :
    Segment.scanFrom taken c = ⟨taken.reverse, none⟩ := by
  refine scanFrom_of_layout ?_ taken
  rw [Segment.skipLayout, Cursor.rest_move, h, List.drop_nil]

/-- The segments from a cursor on, and how they end. -/
theorem ending (taken : List Segment) (c : Cursor) :
    ∃ ss, (Segment.scanFrom taken c).items = taken.reverse ++ ss ∧
      Ending c ss (Segment.scanFrom taken c).error? := by
  fun_induction Segment.scanFrom taken c with
  | case1 taken c e hread =>
    exact ⟨[], (List.append_nil _).symm, .error (Option.some_ne_none e)⟩
  | case2 taken c behind hread =>
    have hmet := met_read c
    rw [hread] at hmet
    cases hmet with
    | nothing hopen =>
      exact ⟨[], (List.append_nil _).symm, .closed (List.forall_mem_nil _) hopen⟩
  | case3 taken c s behind _ hread ih =>
    have hmet := met_read c
    rw [hread] at hmet
    cases hmet with
    | closed hs hbehind hrest =>
      subst hbehind
      obtain ⟨ss, hitems, hending⟩ := ih
      refine ⟨s :: ss, ?_, hending.behind hs hrest⟩
      rw [hitems, List.reverse_cons, List.append_assoc, List.singleton_append]
    | line hline hopen hnil =>
      rw [scanFrom_nil hnil, List.reverse_cons]
      refine ⟨_, rfl, .line ?_ hline hopen (List.nil_append _).symm⟩
      exact List.forall_mem_singleton.mpr (Segment.isClosed_line _ _)
    | source hx hnil =>
      rw [scanFrom_nil hnil, List.reverse_cons]
      exact ⟨_, rfl, .source (List.forall_mem_nil _) hx (List.nil_append _).symm⟩

end EngineHeader.Directive
