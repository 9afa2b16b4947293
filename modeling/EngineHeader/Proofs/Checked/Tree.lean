import EngineHeader.Header
import EngineHeader.Proofs.Checked.Line
import EngineHeader.Proofs.Directive.Exact
import EngineHeader.Proofs.Directive.Plain

/-!
# Directives by slices

The directives of a header, read with its text and a position in it.  What is left of the text is
the slice from the offset of the position on (`rest?`), and the position moves over a slice of that
(`bump?`).  All slices are checked.

The invariant is that the position is exact in the source, as that of a cursor is (`Cursor.In`).
Then what is left can be cut off, and what was measured in it is a slice of it.  So each round gives
the segment that the cursor reads (`segment?_eq`), and the loop gives the tree (`parse?_eq`).
-/

namespace EngineHeader.Checked

open Text Directive

/-! ## Positions in a source -/

/-- The text from a position on. -/
def rest? (source : List Char) (p : Position) : Option (List Char) := from? source p.offset

/-- The position behind so many more bytes. -/
def bump? (source : List Char) (p : Position) (n : Nat) : Option Position := do
  let rest ← rest? source p
  return p.advance (← upTo? rest n)

variable {source : String} {c behind : Cursor}

theorem rest?_of_in (h : c.In source) : rest? source.toList c.position = some c.rest := by
  obtain ⟨front, hsource, hposition⟩ := h
  rw [rest?, hsource, hposition, offset_advance, from?_append]

theorem bump?_of_in (h : c.In source) (n : Nat) :
    bump? source.toList c.position (size (c.rest.take n)) = some (c.move n).position := by
  rw [bump?, rest?_of_in h, Option.bind_eq_bind, Option.bind_some, upTo?_size_take]
  rfl

/-- Where less text is left, fewer bytes are. -/
theorem left_lt_of_in (h : c.In source) (hbehind : behind.In source)
    (hlt : behind.rest.length < c.rest.length) :
    size source.toList - behind.position.offset < size source.toList - c.position.offset := by
  obtain ⟨front, hsource, hposition⟩ := h
  obtain ⟨longer, hsource', hposition'⟩ := hbehind
  have hlength : front.length < longer.length := by
    have hsame := congrArg List.length (hsource.symm.trans hsource')
    rw [List.length_append, List.length_append] at hsame
    omega
  obtain ⟨more, rfl⟩ : front <+: longer :=
    List.prefix_of_prefix_length_le ⟨_, hsource.symm⟩ ⟨_, hsource'.symm⟩ (Nat.le_of_lt hlength)
  have hmore : more ≠ [] := by
    rintro rfl
    rw [List.append_nil] at hlength
    exact absurd hlength (Nat.lt_irrefl _)
  have hpos := size_pos hmore
  rw [hposition, hposition', offset_advance, offset_advance, hsource', size_append, size_append]
  omega

/-! ## Segments -/

/-- What is found in front of a position, cut out of the text. -/
inductive Slice where
  | endOfFile
  | source (text : String)
  | line (line : RawLine)
deriving DecidableEq, Repr

/-- What is found right at a position, where it begins, and the position behind it. -/
def here? (source : List Char) (p : Position) : Option (Slice × Position × Position) := do
  let rest ← rest? source p
  if rest = [] then return (.endOfFile, p, p)
  else if ['#'].isPrefixOf rest then
    let n ← lineEnd rest
    let behind ← bump? source p (if n < size rest then n + 1 else n)
    return (.line (← line? (← upTo? rest n)), p, behind)
  else
    let n ← directiveStart rest
    let behind ← bump? source p n
    return (.source (String.ofList (← upTo? rest n)), p, behind)

/-- What is found behind the white space and the comments at a position. -/
def segment? (source : List Char) (p : Position) :
    Option (Except Error (Slice × Position × Position)) := do
  match ← trivia (← rest? source p) with
  | .error n => return .error (.unrecognized (← bump? source p n) "/*")
  | .ok n => return .ok (← here? source (← bump? source p n))

/-- What a cursor finds, in slices. -/
def foundOf {c : Cursor} : Found c → Slice × Position × Position
  | .segment ⟨.source text, p⟩ behind _ => (.source text, p, behind.position)
  | .segment ⟨.line l, p⟩ behind _ => (.line (.ofLine l), p, behind.position)
  | .nothing behind => (.endOfFile, behind.position, behind.position)

/-- A directive line goes on through its line feed, if there is one. -/
theorem size_take_line (rest : List Char) :
    (if size (rest.take (extent lineUnit rest)) < size rest then
      size (rest.take (extent lineUnit rest)) + 1
    else size (rest.take (extent lineUnit rest))) =
      size (rest.take (extent lineUnit rest + 1)) := by
  have hsum := size_take_add_drop (extent lineUnit rest) rest
  rw [List.take_add, size_append]
  rcases OnePass.eq_of_lineUnit_eq_zero (unit_drop_extent rfl rest) with hnil | ⟨behind, hfeed⟩
  · rw [hnil, size_nil, Nat.add_zero] at hsum
    rw [hnil, hsum, if_neg (Nat.lt_irrefl _)]
    rfl
  · rw [hfeed, size_cons] at hsum
    have hpos := Char.utf8Size_pos '\n'
    rw [hfeed, if_pos (by omega)]
    rfl

theorem here?_eq (h : c.In source) (hblock : opensBlock c.rest = false) :
    (here? source.toList c.position).map .ok = some ((Segment.readHere c).map foundOf) := by
  rw [here?, rest?_of_in h, Option.bind_eq_bind, Option.bind_some, Segment.readHere, hblock]
  split
  · rfl
  · next hne =>
    obtain ⟨x, rest, hrest⟩ := List.exists_cons_of_ne_nil hne
    have hhead : ['#'].isPrefixOf c.rest = (c.rest.head hne == '#') := by
      simp only [hrest, List.head_cons]
      rw [isPrefixOf_singleton]
    rw [hhead, if_neg Bool.false_ne_true]
    by_cases hhash : c.rest.head hne = '#'
    · have htake : c.rest.take (extent lineUnit c.rest) =
          '#' :: (c.rest.take (extent lineUnit c.rest)).tail := by
        obtain rfl : x = '#' := by
          simp only [hrest, List.head_cons] at hhash
          exact hhash
        rw [hrest, extent_lineUnit_hash]
        rfl
      have hline : line? (c.rest.take (extent lineUnit c.rest)) =
          some (.ofLine (Line.ofText (c.rest.take (extent lineUnit c.rest)).tail)) := by
        rw [htake]
        exact line?_eq _
      rw [if_pos (beq_iff_eq.mpr hhash), if_pos hhash]
      simp only [lineEnd_eq, size_take_line, bump?_of_in h, upTo?_size_take, hline,
        Option.bind_eq_bind, Option.bind_some]
      rfl
    · rw [if_neg (mt beq_iff_eq.mp hhash), if_neg hhash]
      simp only [directiveStart_eq, bump?_of_in h, upTo?_size_take, Option.bind_eq_bind,
        Option.bind_some]
      rfl

theorem segment?_eq (h : c.In source) :
    segment? source.toList c.position = some ((Segment.read c).map foundOf) := by
  have hskip : (Segment.skipLayout c).In source := h.move _
  simp only [segment?, rest?_of_in h, trivia_eq, Option.bind_eq_bind, Option.bind_some]
  rw [triviaEnd]
  cases hblock : opensBlock (c.rest.drop (extent layoutUnit c.rest)) with
  | true =>
    simp only [if_true, bump?_of_in h, Option.bind_some]
    rw [read_of_opensBlock hblock]
    rfl
  | false =>
    have hhere := here?_eq hskip hblock
    have hsame : (Segment.skipLayout c).position =
        (c.move (extent layoutUnit c.rest)).position := rfl
    rw [hsame] at hhere
    simp only [Bool.false_eq_true, if_false, bump?_of_in h, Option.bind_some]
    refine Eq.trans ?_ (hhere.trans ?_)
    · cases here? source.toList (c.move (extent layoutUnit c.rest)).position with
      | none => rfl
      | some _ => rfl
    · rw [Segment.read]
      cases Segment.readHere (Segment.skipLayout c) with
      | error e => rfl
      | ok found =>
        cases found with
        | nothing behind => rfl
        | segment s behind _ =>
          obtain ⟨content, p⟩ := s
          cases content with
          | source text => rfl
          | line l => rfl

/-! ## The tree -/

/-- A round goes on behind the position, if there is no error. -/
def goOn (behind : Position) :
    Except Error Builder → Step (Position × Builder) (Except Error (List Directive))
  | .error e => .done (.error e)
  | .ok b => .next (behind, b)

/-- A round of `parse?`. -/
def parseStep (source : List Char) :
    Position × Builder → Option (Step (Position × Builder) (Except Error (List Directive)))
  | (p, b) => do
    match ← segment? source p with
    | .error e => return .done (.error e)
    | .ok (.endOfFile, _, _) => return .done b.finish
    | .ok (.source text, _, behind) => return .next (behind, b.add (.source text))
    | .ok (.line l, p, behind) =>
      return goOn behind (((← l.instruction?) >>= b.follow p).mapError (.directive p))

/-- The directives of a header. -/
def parse? (source : List Char) : Option (Except Error (List Directive)) :=
  iterate (fun s => size source - s.1.offset) (parseStep source) (.start, .empty)

/-- A scan goes on behind the segments that are already taken. -/
theorem exists_items (taken : List Segment) (c : Cursor) :
    ∃ more, (Segment.scanFrom taken c).items = taken.reverse ++ more := by
  fun_induction Segment.scanFrom taken c with
  | case1 => exact ⟨[], (List.append_nil _).symm⟩
  | case2 => exact ⟨[], (List.append_nil _).symm⟩
  | case3 taken c s behind _ _ ih =>
    obtain ⟨more, hmore⟩ := ih
    refine ⟨s :: more, ?_⟩
    rw [hmore, List.reverse_cons, List.append_assoc]
    rfl

/-- A segment that cannot be followed is the error, whatever else the scan finds. -/
theorem ofScan_of_step_error {taken : List Segment} {b : Builder} {s : Segment} {e : Error}
    (hb : taken.reverse.foldlM Builder.step Builder.empty = .ok b) (hs : b.step s = .error e)
    (behind : Cursor) : ofScan (Segment.scanFrom (s :: taken) behind) = .error e := by
  obtain ⟨more, hmore⟩ := exists_items (s :: taken) behind
  rw [ofScan, hmore, List.reverse_cons, List.append_assoc, List.foldlM_append, hb]
  simp only [List.cons_append, List.foldlM_cons]
  change (b.step s >>= fun b => _) >>= _ = _
  rw [hs]
  rfl

/-- The step of a builder over a segment. -/
theorem parseStep_eq (h : c.In source) (b : Builder) :
    parseStep source.toList (c.position, b) =
      some (match Segment.read c with
        | .error e => .done (.error e)
        | .ok (.nothing _) => .done b.finish
        | .ok (.segment s behind _) => goOn behind.position (b.step s)) := by
  have hspelled := Segment.spelled_read c
  rw [parseStep, segment?_eq h, Option.bind_eq_bind, Option.bind_some]
  cases hread : Segment.read c with
  | error e => rfl
  | ok found =>
    rw [hread] at hspelled
    cases hspelled with
    | nothing _ => rfl
    | source => rfl
    | @line text _ _ _ _ =>
      simp only [Except.map, foundOf, instruction?_eq]
      rfl

theorem iterate_parse {taken : List Segment} {b : Builder} (h : c.In source)
    (hb : taken.reverse.foldlM Builder.step Builder.empty = .ok b) :
    iterate (fun s => size source.toList - s.1.offset) (parseStep source.toList) (c.position, b) =
      some (ofScan (Segment.scanFrom taken c)) := by
  have hstep := parseStep_eq h b
  fun_induction Segment.scanFrom taken c generalizing b with
  | case1 taken c e hread =>
    rw [hread] at hstep
    rw [iterate_done hstep, ofScan, hb]
    rfl
  | case2 taken c behind hread =>
    rw [hread] at hstep
    rw [iterate_done hstep, ofScan, hb]
    rfl
  | case3 taken c s behind hlt hread ih =>
    have hbehind := (Segment.isAt_of_read h hread).2
    rw [hread] at hstep
    cases hs : b.step s with
    | error e =>
      simp only [hs, goOn] at hstep
      rw [iterate_done hstep, ofScan_of_step_error hb hs]
    | ok b' =>
      simp only [hs, goOn] at hstep
      rw [iterate_next hstep (left_lt_of_in h hbehind hlt)]
      refine ih hbehind ?_ (parseStep_eq hbehind b')
      rw [List.reverse_cons, List.foldlM_append, hb]
      change (b.step s >>= fun b => _) = _
      rw [hs]
      rfl

theorem parse?_eq (source : String) : parse? source.toList = some (ofText source) :=
  iterate_parse (Cursor.in_ofText source) rfl

/-- The text of a header that is left where `names` are defined. -/
def flatten? (source : List Char) (names : Names) : Option (Except Error String) :=
  (parse? source).map (·.map (Directive.flatten · names))

theorem flatten?_eq (source : String) (names : Names) :
    flatten? source.toList names = some (EngineHeader.flatten source names) := by
  rw [flatten?, parse?_eq, Option.map_some, EngineHeader.flatten]
  cases ofText source with
  | error e => rfl
  | ok ds => rfl

end EngineHeader.Checked
