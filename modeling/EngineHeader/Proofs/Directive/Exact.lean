import EngineHeader.Directive.Segment
import EngineHeader.Proofs.Token.Exact

/-!
# Where segments stand

Each segment begins at its position: source text with its first character, and a directive line
with its number sign.  The end of the text is found at the end, and a comment that is never closed
at its opening (`Segment.Reached.isAt`, `Segment.scanText_isAt`).

All of this is read off one cursor, the one behind the white space and the comments
(`spelled_read`).  The invariant is that the cursor is in the source.  The other way round, each
segment of the source is found at some cursor that reading comes to (`exists_read_of_mem`).
-/

namespace EngineHeader.Directive.Segment

open Text

/-- What is found at a cursor is spelled by the text behind the white space and the comments. -/
inductive Spelled (c : Cursor) : Except Error (Found c) → Prop where
  | unclosed :
    Spelled c (.error (.unrecognized (skipLayout c).position ((skipLayout c).peek 2)))
  | nothing : (skipLayout c).rest = [] → Spelled c (.ok (.nothing (skipLayout c)))
  | line {text behind : List Char} {n : Nat}
      {h : ((skipLayout c).move n).rest.length < c.rest.length} :
    (skipLayout c).rest = '#' :: text ++ behind →
    Spelled c (.ok (.segment ⟨.line (.ofText text), (skipLayout c).position⟩
      ((skipLayout c).move n) h))
  | source {n : Nat} {h : ((skipLayout c).move n).rest.length < c.rest.length} :
    Spelled c (.ok (.segment ⟨.source ((skipLayout c).peek n), (skipLayout c).position⟩
      ((skipLayout c).move n) h))

theorem spelled_read (c : Cursor) : Spelled c (read c) := by
  rw [read, readHere]
  split
  · next hnil => exact .nothing hnil
  split
  · exact .unclosed
  split
  · next hne _ hhash =>
    obtain ⟨head, rest, hrest⟩ := List.exists_cons_of_ne_nil hne
    simp only [hrest, List.head_cons] at hhash
    subst hhash
    have htext : (skipLayout c).rest = '#' ::
        ((skipLayout c).rest.take (extent lineUnit (skipLayout c).rest)).tail ++
          (skipLayout c).rest.drop (extent lineUnit (skipLayout c).rest) := by
      rw [hrest, extent_lineUnit_hash, List.take_succ_cons, List.tail_cons, List.drop_succ_cons,
        List.cons_append, List.take_append_drop]
    exact .line htext
  · exact .source

/-- A segment begins behind the white space and the comments. -/
theorem position_of_read {c behind : Cursor} {s : Segment}
    {h : behind.rest.length < c.rest.length} (hread : read c = .ok (.segment s behind h)) :
    s.position = (skipLayout c).position := by
  have hspelled := spelled_read c
  rw [hread] at hspelled
  cases hspelled with
  | line _ => rfl
  | source => rfl

/-- Where a number sign is in front, the segment is the directive line behind it, and reading goes
on behind the line feed. -/
theorem read_of_hash {c : Cursor} {rest : List Char} (h : (skipLayout c).rest = '#' :: rest) :
    ∃ shorter, read c = .ok (.segment
      ⟨.line (.ofText (rest.take (extent lineUnit rest))), (skipLayout c).position⟩
      ((skipLayout c).move (extent lineUnit rest + 2)) shorter) := by
  have hne : (skipLayout c).rest ≠ [] := by
    rw [h]
    exact List.cons_ne_nil _ _
  have hb : ¬ opensBlock (skipLayout c).rest = true := by
    rw [h]
    exact Bool.false_ne_true
  have hhash : (skipLayout c).rest.head hne = '#' := by simp only [h, List.head_cons]
  obtain ⟨shorter, hread⟩ : ∃ shorter, read c = .ok (.segment
      ⟨.line (.ofText ((skipLayout c).rest.take (extent lineUnit (skipLayout c).rest)).tail),
        (skipLayout c).position⟩
      ((skipLayout c).move (extent lineUnit (skipLayout c).rest + 1)) shorter) := by
    rw [read, readHere, dif_neg hne, if_neg hb, if_pos hhash]
    exact ⟨_, rfl⟩
  simp only [h, extent_lineUnit_hash, List.take_succ_cons, List.tail_cons] at hread
  exact ⟨_, hread⟩

/-- A directive line that ends with a line feed is read, and reading goes on behind it. -/
theorem read_line {c : Cursor} {line rest : List Char}
    (hrest : (skipLayout c).rest = '#' :: (line ++ '\n' :: rest))
    (hend : extent lineUnit (line ++ '\n' :: rest) = line.length) :
    ∃ shorter, read c = .ok (.segment
      ⟨.line (.ofText line), (skipLayout c).position⟩
      ⟨rest, (skipLayout c).position.advance ('#' :: line ++ ['\n'])⟩ shorter) := by
  obtain ⟨shorter, hread⟩ := read_of_hash hrest
  have hmove : (skipLayout c).move (line.length + 2) =
      ⟨rest, (skipLayout c).position.advance ('#' :: line ++ ['\n'])⟩ := by
    have hwhole : (skipLayout c).rest = ('#' :: line ++ ['\n']) ++ rest := by
      rw [hrest]
      simp
    have hlength : line.length + 2 = ('#' :: line ++ ['\n']).length := by simp
    rw [Cursor.move, hwhole, hlength, List.drop_left, List.take_left]
  simp only [hend, List.take_left, hmove] at hread
  exact ⟨_, hread⟩

variable {source : String}

/-- The segment begins at its position, and this is exact. -/
inductive IsAt (source : String) : Segment → Prop where
  | source {text : String} {p : Position} : StandsAt source text p → IsAt source ⟨.source text, p⟩
  | line {text : List Char} {p : Position} :
    StandsAt source (String.ofList ('#' :: text)) p → IsAt source ⟨.line (.ofText text), p⟩

/-- A cursor that reading the source comes to.  Reading may go on at the end and behind an error. -/
inductive Reached (source : String) : Cursor → Prop where
  | start : Reached source (.ofText source)
  | segment {c behind : Cursor} {s : Segment} {h : behind.rest.length < c.rest.length} :
    Reached source c → read c = .ok (.segment s behind h) → Reached source behind
  | nothing {c behind : Cursor} :
    Reached source c → read c = .ok (.nothing behind) → Reached source behind
  | error {c : Cursor} {e : Error} :
    Reached source c → read c = .error e → Reached source (skipLayout c)

variable {c behind : Cursor} {s : Segment} {e : Error}

theorem isAt_of_read {h : behind.rest.length < c.rest.length} (hc : c.In source)
    (hread : read c = .ok (.segment s behind h)) : s.IsAt source ∧ behind.In source := by
  have hspelled := spelled_read c
  have hskip : (skipLayout c).In source := hc.move _
  rw [hread] at hspelled
  cases hspelled with
  | line htext => exact ⟨.line (hskip.standsAt htext), hskip.move _⟩
  | source => exact ⟨.source (hskip.standsAt_peek _), hskip.move _⟩

theorem isEnd_of_read (hc : c.In source) (hread : read c = .ok (.nothing behind)) :
    IsEnd source behind.position ∧ behind.In source := by
  have hspelled := spelled_read c
  have hskip : (skipLayout c).In source := hc.move _
  rw [hread] at hspelled
  cases hspelled with
  | nothing hnil => exact ⟨hskip.isEnd hnil, hskip⟩

theorem unrecognized_of_read (hc : c.In source) (hread : read c = .error e) :
    e.Unrecognized source := by
  have hspelled := spelled_read c
  have hskip : (skipLayout c).In source := hc.move _
  rw [hread] at hspelled
  cases hspelled with
  | unclosed => exact ⟨_, _, rfl, hskip.standsAt_peek 2⟩

/-- A cursor that is reached is in the source. -/
theorem Reached.cursor_in (h : Reached source c) : c.In source := by
  induction h with
  | start => exact Cursor.in_ofText source
  | segment _ hread ih => exact (isAt_of_read ih hread).2
  | nothing _ hread ih => exact (isEnd_of_read ih hread).2
  | error _ _ ih => exact ih.move _

/-- Whatever is found next stands where it is said to be. -/
theorem Reached.isAt (h : Reached source c) :
    (∀ s behind hshorter, read c = .ok (.segment s behind hshorter) → s.IsAt source) ∧
      (∀ behind, read c = .ok (.nothing behind) → IsEnd source behind.position) ∧
      ∀ e, read c = .error e → e.Unrecognized source :=
  ⟨fun _ _ _ hread => (isAt_of_read h.cursor_in hread).1,
    fun _ hread => (isEnd_of_read h.cursor_in hread).1,
    fun _ hread => unrecognized_of_read h.cursor_in hread⟩

/-- What was taken is among the segments. -/
theorem mem_scanFrom {taken : List Segment} (h : s ∈ taken) (c : Cursor) :
    s ∈ (scanFrom taken c).items := by
  fun_induction scanFrom taken c with
  | case1 taken c e hread => exact List.mem_reverse.mpr h
  | case2 taken c behind hread => exact List.mem_reverse.mpr h
  | case3 taken c next behind _ hread ih => exact ih (List.mem_cons_of_mem next h)

/-- A segment is found where reading comes to, and reading goes on behind it. -/
theorem exists_read_of_mem {taken : List Segment} (hc : Reached source c)
    (h : s ∈ (scanFrom taken c).items) :
    s ∈ taken ∨ ∃ before d behind shorter, Reached source d ∧
      scanFrom taken c = scanFrom before d ∧ read d = .ok (.segment s behind shorter) := by
  fun_induction scanFrom taken c with
  | case1 taken c e hread => exact .inl (List.mem_reverse.mp h)
  | case2 taken c behind hread => exact .inl (List.mem_reverse.mp h)
  | case3 taken c next behind _ hread ih =>
    rcases ih (hc.segment hread) h with hmem | hfound
    · rcases List.mem_cons.mp hmem with rfl | hmem
      · refine .inr ⟨taken, c, behind, _, hc, ?_, hread⟩
        rw [scanFrom.eq_1 taken c, hread]
      · exact .inl hmem
    · exact .inr hfound

/-- The segments that are found, if the cursor is in the source. -/
theorem scanFrom_isAt {taken : List Segment} (htaken : ∀ s ∈ taken, s.IsAt source)
    (hc : c.In source) :
    (∀ s ∈ (scanFrom taken c).items, s.IsAt source) ∧
      ∀ e, (scanFrom taken c).error? = some e → e.Unrecognized source := by
  fun_induction scanFrom taken c with
  | case1 taken c e hread =>
    refine ⟨fun s hs => htaken s (List.mem_reverse.mp hs), ?_⟩
    rintro _ ⟨⟩
    exact unrecognized_of_read hc hread
  | case2 taken c behind hread =>
    exact ⟨fun s hs => htaken s (List.mem_reverse.mp hs), fun _ he => nomatch he⟩
  | case3 taken c s behind _ hread ih =>
    obtain ⟨hs, hbehind⟩ := isAt_of_read hc hread
    exact ih (List.forall_mem_cons.mpr ⟨hs, htaken⟩) hbehind

theorem scanText_isAt (source : String) :
    (∀ s ∈ (scanText source).items, s.IsAt source) ∧
      ∀ e, (scanText source).error? = some e → e.Unrecognized source :=
  scanFrom_isAt (List.forall_mem_nil _) (Cursor.in_ofText source)

end EngineHeader.Directive.Segment
