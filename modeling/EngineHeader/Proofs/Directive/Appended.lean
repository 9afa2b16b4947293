import EngineHeader.Proofs.Directive.Cutting
import EngineHeader.Proofs.Directive.Exact
import Mathlib.Data.List.Basic

/-!
# Text behind a directive line

A header may end in a directive line with the line feed behind it.  Then whatever text is appended
is cut as it is alone (`scanText_append`).  No segment, no comment and no escaped line end reaches
across the boundary.

The pass over the header shows it.  Behind the line feed the pass is in the state in which it
begins.  It came there step by step, and no step looks at text behind the header
(`exists_step`, `code_append`).  The pieces of the appended text are the ones it has alone, and
only the places of its segments are others.
-/

namespace EngineHeader.Directive

open Text

/-! ## Segments behind whole lines -/

/-- The segment behind so many more bytes and lines. -/
def Segment.shift (s : Segment) (bytes lines : Nat) : Segment :=
  { s with position := s.position.shift bytes lines }

/-- The scan of a text that stands behind so many more bytes and lines. -/
def shiftScan (s : Scan Segment) (bytes lines : Nat) : Scan Segment where
  items := s.items.map (·.shift bytes lines)
  error? := s.error?.map (·.shift bytes lines)

namespace OnePass

theorem segmentsFrom_shift (p : Position) (bytes lines : Nat) (ps : List Piece) :
    segmentsFrom (p.shift bytes lines) ps =
      (segmentsFrom p ps).map (·.shift bytes lines) := by
  induction ps generalizing p with
  | nil => rfl
  | cons piece ps ih =>
    cases piece with
    | skipped text => rw [segmentsFrom, Position.advance_shift, ih, segmentsFrom]
    | directive line ended =>
      rw [segmentsFrom, Position.advance_shift, ih, segmentsFrom]
      rfl
    | source text =>
      rw [segmentsFrom, Position.advance_shift, ih, segmentsFrom]
      rfl

theorem Cut.scan_shift (c : Cut) (p : Position) (bytes lines : Nat) :
    c.scan (p.shift bytes lines) = shiftScan (c.scan p) bytes lines := by
  rw [Cut.scan, segmentsFrom_shift, Position.advance_shift, shiftScan, Cut.scan]
  by_cases h : c.unclosed = []
  · rw [if_pos h, if_pos h]
    rfl
  · rw [if_neg h, if_neg h]
    rfl

/-! ## Where the pass ends behind a line -/

/-- The last of the pieces is a directive line with a line feed behind it. -/
def EndsLine (ps : List Piece) : Prop := ∃ line, ps.getLast? = some (.directive line true)

/-- The pass ends behind a directive line with a line feed behind it. -/
structure Cut.EndsLine (c : Cut) : Prop where
  pieces : OnePass.EndsLine c.pieces
  unclosed : c.unclosed = []

variable {s : State} {m : List Piece × State} {text rest : List Char} {go : State → Cut}

/-- A line that is at the end of all pieces is at the end of those behind, unless there are
none. -/
theorem EndsLine.of_append {ps qs : List Piece} (h : EndsLine (ps ++ qs)) :
    qs = [] ∧ EndsLine ps ∨ EndsLine qs := by
  obtain ⟨line, h⟩ := h
  rcases List.eq_nil_or_concat' qs with rfl | ⟨qs, q, rfl⟩
  · rw [List.append_nil] at h
    exact .inl ⟨rfl, line, h⟩
  · rw [← List.append_assoc, List.getLast?_concat] at h
    exact .inr ⟨line, by rw [List.getLast?_concat, h]⟩

/-- At the end of the text no line feed is met. -/
theorem not_endsLine_finish (hm : ¬ EndsLine m.1) : ¬ (andThen m State.finish).EndsLine := by
  rintro ⟨hpieces, _⟩
  rcases EndsLine.of_append hpieces with ⟨_, h⟩ | ⟨line, h⟩
  · exact hm h
  · obtain ⟨ps, fresh, inside, taken⟩ := m
    cases inside with
    | neither => cases h
    | directive => cases h
    | source => cases h

theorem not_endsLine_nil : ¬ EndsLine [] := by
  rintro ⟨line, h⟩
  cases h

theorem not_endsLine_endComment (s : State) : ¬ EndsLine s.endComment.1 := by
  rintro ⟨line, h⟩
  obtain ⟨fresh, inside, taken⟩ := s
  cases inside with
  | neither => cases h
  | directive => cases h
  | source => cases h

theorem not_endsLine_next (s : State) (c : Char) : ¬ EndsLine (s.next c).1 := by
  rintro ⟨line, h⟩
  rw [State.next] at h
  split at h
  · split at h
    · cases h
    · split at h
      · cases h
      · cases h
  · cases h
  · split at h
    · cases h
    · split at h
      · cases h
      · cases h

/-- Behind a line feed that ends a directive line the pass is as at the beginning. -/
theorem endLine_eq_start (h : EndsLine s.endLine.1) : s.endLine.2 = .start := by
  obtain ⟨line, h⟩ := h
  obtain ⟨fresh, inside, taken⟩ := s
  cases inside with
  | neither => cases h
  | directive => rfl
  | source => cases h

/-! ## Steps of the pass -/

/-- The pass goes on from the text to the rest of it, whatever stands behind.  If that finishes a
directive line, it is as at the beginning. -/
structure Steps (s : State) (text : List Char) (m : List Piece × State) (rest : List Char) :
    Prop where
  shorter : rest.length < text.length
  start : EndsLine m.1 → m.2 = .start
  code_eq : ∀ behind, code s (text ++ behind) = andThen m fun s => code s (rest ++ behind)

theorem steps_block {n : Nat} (h : blockComment? text = some n) :
    Steps s text (s.pushAll (text.take n)).endComment (text.drop n) where
  shorter := by
    obtain ⟨inside, k, rfl, rfl, _⟩ := exists_of_blockComment h
    exact length_drop_lt (List.cons_ne_nil _ _) (blockComment_pos h)
  start hends := absurd hends (not_endsLine_endComment _)
  code_eq behind := by
    have hle : n ≤ text.length := by
      rw [← length_take_blockComment h]
      exact List.length_take_le' _ _
    rw [code_of_closed (blockComment_append h behind), List.take_append_of_le_length hle,
      List.drop_append_of_le_length hle]

/-- A line comment and the line feed behind it. -/
theorem steps_line (hl : opensLine text = true)
    (hrest : text.drop (lineLength text) = '\n' :: rest) :
    Steps s text
      ((s.pushAll (text.take (lineLength text))).endComment.1 ++
          (s.pushAll (text.take (lineLength text))).endComment.2.endLine.1,
        (s.pushAll (text.take (lineLength text))).endComment.2.endLine.2) rest where
  shorter := by
    have hlength := congrArg List.length hrest
    rw [List.length_drop, List.length_cons] at hlength
    omega
  start hends := by
    rcases hends.of_append with ⟨_, h⟩ | h
    · exact absurd h (not_endsLine_endComment _)
    · exact endLine_eq_start h
  code_eq behind := by
    have hopens : opensLine (text ++ behind) = true := by
      obtain ⟨inside, rfl⟩ := eq_of_opensLine hl
      rfl
    have hwhole : text ++ behind = text.take (lineLength text) ++ '\n' :: (rest ++ behind) := by
      rw [← List.cons_append, ← hrest, ← List.append_assoc, List.take_append_drop]
    have hlength : lineLength (text ++ behind) = (text.take (lineLength text)).length := by
      rw [hwhole]
      exact lineLength_append (opensLine_take hl).2 (.inr ⟨_, rfl⟩)
    rw [code_of_line hopens, hlength, hwhole, List.take_left, List.drop_left]
    exact Cut.behind_behind _ _ _

theorem steps_feed (s : State) (text : List Char) :
    ∃ m, Steps s ('\n' :: text) m text := by
  by_cases hs : s.escapes = true
  · refine ⟨([], s.push '\n'), Nat.lt_succ_self _, fun h => absurd h not_endsLine_nil, ?_⟩
    intro behind
    rw [List.cons_append, code, if_pos hs, andThen_nil]
  · refine ⟨s.endLine, Nat.lt_succ_self _, endLine_eq_start, ?_⟩
    intro behind
    rw [List.cons_append, code, if_neg hs]

/-- Any other character, where another stands behind it. -/
theorem steps_other {c x : Char} (hb : opensBlock (c :: x :: text) = false)
    (hl : opensLine (c :: x :: text) = false) (hc : c ≠ '\n') :
    Steps s (c :: x :: text) (s.next c) (x :: text) where
  shorter := Nat.lt_succ_self _
  start hends := absurd hends (not_endsLine_next s c)
  code_eq behind := by
    have hopens : opensBlock (c :: x :: (text ++ behind)) = false ∧
        opensLine (c :: x :: (text ++ behind)) = false := by
      by_cases hslash : c = '/'
      · subst hslash
        exact opens_of_slash ⟨hb, hl⟩ _
      · exact opens_of_ne hslash _
    exact code_other hopens hc s

/-- The pass over a text that ends behind a directive line begins with a step. -/
theorem exists_step (h : (code s text).EndsLine) : ∃ m rest, Steps s text m rest := by
  cases hb : opensBlock text with
  | true =>
    cases hn : blockComment? text with
    | none =>
      rw [code_of_unclosed hb hn] at h
      exact absurd h (not_endsLine_finish (m := ([], _)) not_endsLine_nil)
    | some n => exact ⟨_, _, steps_block hn⟩
  | false =>
    cases hl : opensLine text with
    | true =>
      rcases drop_lineLength text with hnil | ⟨rest, hrest⟩
      · rw [code_of_line hl, hnil] at h
        exact absurd h (not_endsLine_finish (not_endsLine_endComment _))
      · exact ⟨_, _, steps_line hl hrest⟩
    | false =>
      cases text with
      | nil => exact absurd h (not_endsLine_finish (m := ([], s)) not_endsLine_nil)
      | cons c text =>
        by_cases hc : c = '\n'
        · subst hc
          obtain ⟨m, hm⟩ := steps_feed s text
          exact ⟨m, text, hm⟩
        · cases text with
          | nil =>
            rw [code_other ⟨hb, hl⟩ hc] at h
            exact absurd h (not_endsLine_finish (not_endsLine_next s c))
          | cons x text => exact ⟨_, _, steps_other hb hl hc⟩

/-- Where the pass ends behind a directive line, it begins again with the text behind. -/
theorem code_append (h : (code s text).EndsLine) (behind : List Char) :
    code s (text ++ behind) = (cut behind).behind (code s text).pieces := by
  induction hlen : text.length using Nat.strongRecOn generalizing s text with
  | ind n ih =>
  obtain ⟨m, rest, hshorter, hstart, hcode⟩ := exists_step h
  have hself := hcode []
  simp only [List.append_nil] at hself
  rw [hself] at h ⊢
  rw [hcode, andThen, andThen]
  rcases EndsLine.of_append h.pieces with ⟨hnone, hends⟩ | hends
  · have hm := hstart hends
    have hrest : rest = [] := by
      have hcovers := (covers_cut rest).text
      rw [cut, ← hm, hnone, show (code m.2 rest).unclosed = [] from h.unclosed] at hcovers
      exact hcovers.symm
    rw [hrest, hm, List.nil_append, code, cut]
    simp [Cut.behind, State.finish, State.start]
  · rw [ih _ (hlen ▸ hshorter) ⟨hends, h.unclosed⟩ rfl, Cut.behind_behind]
    rfl

/-! ## Segments and the pass -/

/-- The pass comes to each segment with nothing unfinished. -/
theorem exists_cut_of_mem {taken : List Segment} {c : Cursor} {seg : Segment}
    (h : seg ∈ (Segment.scanFrom taken c).items) :
    seg ∈ taken ∨ ∃ ps rest, textOf ps ++ rest = c.rest ∧
      seg.position = c.position.advance (textOf ps) ∧ cut c.rest = (cut rest).behind ps := by
  fun_induction Segment.scanFrom taken c with
  | case1 taken c e hread => exact .inl (List.mem_reverse.mp h)
  | case2 taken c behind hread => exact .inl (List.mem_reverse.mp h)
  | case3 taken c first behind _ hread ih =>
    rcases ih h with hmem | ⟨ps, rest, htext, hposition, hcut⟩
    · rcases List.mem_cons.mp hmem with rfl | hmem
      · obtain ⟨ps, _, htext, hcut⟩ := cut_extent_layout c.rest
        refine .inr ⟨ps, _, ?_, ?_, hcut⟩
        · rw [htext, List.take_append_drop]
        · rw [Segment.position_of_read hread, htext]
          rfl
      · exact .inl hmem
    · have htold := told_read c
      rw [hread] at htold
      cases htold with
      | @segment qs q _ _ n _ _ hmove hqcut hqtext _ =>
        refine .inr ⟨qs ++ [q] ++ ps, rest, ?_, ?_, ?_⟩
        · rw [textOf_append, hqtext, List.append_assoc, htext, hmove]
          exact List.take_append_drop _ _
        · rw [textOf_append, Position.advance_append, hqtext, hposition, hmove]
          rfl
        · rw [hqcut, hcut, Cut.behind_behind]

end OnePass

/-! ## Headers that end in a directive line -/

/-- The last segment of the header is a directive line.  It ends in front of a line feed, and this
is the end of the header. -/
def EndsInLine (source : String) : Prop :=
  ∃ front line, source.toList = front ++ '#' :: line ++ ['\n'] ∧
    extent lineUnit ('#' :: line ++ ['\n']) = line.length + 1 ∧
    (Segment.scanText source).items.getLast? =
      some ⟨.line (.ofText line), Position.start.advance front⟩

open OnePass

/-- The pass over such a header ends behind the line. -/
theorem EndsInLine.cut {source : String} (h : EndsInLine source) :
    (cut source.toList).EndsLine := by
  obtain ⟨front, line, hsource, hextent, hlast⟩ := h
  obtain ⟨ps, rest, htext, hposition, hcut⟩ :=
    (exists_cut_of_mem (List.mem_of_getLast? hlast)).resolve_left List.not_mem_nil
  replace hposition : Position.start.advance front = Position.start.advance (textOf ps) := hposition
  replace hcut : OnePass.cut source.toList = (OnePass.cut rest).behind ps := hcut
  have hwhole : front ++ ('#' :: line ++ ['\n']) = textOf ps ++ rest := by
    rw [← List.append_assoc, ← hsource, htext]
    rfl
  obtain rfl := Position.eq_of_advance_eq hwhole hposition
  obtain rfl := List.append_cancel_left hwhole
  obtain ⟨ended, hline, hpiece⟩ := code_hash (line ++ ['\n'])
  have htake : ('#' :: line ++ ['\n']).take (line.length + 1) = '#' :: line :=
    @List.take_left _ ('#' :: line) ['\n']
  have hall : ('#' :: line ++ ['\n']).length ≤ line.length + 1 + 1 := by simp
  rw [← List.cons_append, hextent, htake] at hline hpiece
  rw [List.drop_of_length_le hall] at hline
  rw [List.take_of_length_le hall] at hpiece
  obtain rfl : ended = true := by
    cases ended with
    | true => rfl
    | false => simp [Piece.text] at hpiece
  rw [hcut, hline, OnePass.cut, code]
  exact ⟨⟨'#' :: line, by simp [Cut.behind, State.finish, State.start]⟩, rfl⟩

/-- The place behind such a header, or at the beginning, is the beginning of a later line. -/
theorem start_advance_of_endsInLine {a : String} (ha : a = "" ∨ EndsInLine a) :
    Position.start.advance a.toList =
      Position.start.shift a.utf8ByteSize (a.toList.count '\n') := by
  rcases ha with rfl | ⟨front, line, hsource, _⟩
  · rfl
  · have hbytes : a.utf8ByteSize = (String.ofList (front ++ '#' :: line)).utf8ByteSize + 1 := by
      have htext := congrArg String.ofList hsource
      rw [String.ofList_toList, String.ofList_append] at htext
      rw [htext, String.utf8ByteSize_append]
      rfl
    rw [hbytes, hsource, List.count_append, Position.advance_append]
    exact Position.start_advance_feed _

/-- Text behind a directive line is cut as it is alone. -/
theorem scanText_append {a : String} (ha : a = "" ∨ EndsInLine a) (b : String) :
    Segment.scanText (a ++ b) =
      ⟨(Segment.scanText a).items ++
          (shiftScan (Segment.scanText b) a.utf8ByteSize (a.toList.count '\n')).items,
        (shiftScan (Segment.scanText b) a.utf8ByteSize (a.toList.count '\n')).error?⟩ := by
  have hplace := start_advance_of_endsInLine ha
  have hpass (source : String) :
      Segment.scanText source = (OnePass.cut source.toList).scan .start :=
    scanFrom_eq_cut [] (.ofText source)
  have hcut : OnePass.cut (a ++ b).toList =
        (OnePass.cut b.toList).behind (OnePass.cut a.toList).pieces ∧
      textOf (OnePass.cut a.toList).pieces = a.toList := by
    rw [String.toList_append]
    rcases ha with rfl | ha
    · have hnil : OnePass.cut "".toList = ⟨[], []⟩ := by
        rw [OnePass.cut, String.toList_empty, code]
        rfl
      rw [hnil]
      exact ⟨rfl, rfl⟩
    · have hcovers := (covers_cut a.toList).text
      rw [ha.cut.unclosed, List.append_nil] at hcovers
      exact ⟨code_append ha.cut b.toList, hcovers⟩
  obtain ⟨hcut, htext⟩ := hcut
  rw [hpass (a ++ b), hcut, Cut.scan_behind, htext, hplace, Cut.scan_shift, ← hpass b, hpass a]
  rfl

end EngineHeader.Directive
