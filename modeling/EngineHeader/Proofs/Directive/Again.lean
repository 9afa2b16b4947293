import EngineHeader.Proofs.Directive.Meaning
import EngineHeader.Proofs.Directive.Sources
import Mathlib

/-!
# Flattening again

The text that flattening leaves holds no directive, and to flatten it once more only trims it
(`flatten_flatten`).  It is made of line feeds and of spans with a line feed behind each, and
only the last span may leave a comment open (`Flat`).  Since spans hide no directive line, and
hide none next to each other either, source text goes from the first span to the end of the
text (`Flat.source`).  In front of it stand line feeds.

So the second pass finds one segment, or none if there are only line feeds.  Whatever names
are defined makes no difference to that.
-/

namespace EngineHeader.Directive

open Text

/-! ## Flat text -/

/-- Line feeds, and spans with a line feed behind each.  The last span may leave a comment
open, and the flag says whether it does. -/
inductive Flat : Bool → List Char → Prop where
  | nil : Flat false []
  | feed {leftOpen : Bool} {text : List Char} : Flat leftOpen text → Flat leftOpen ('\n' :: text)
  | span {leftOpen : Bool} {x text : List Char} :
    ClosedSpan x → Flat leftOpen text → Flat leftOpen (x ++ '\n' :: text)
  | last {x : List Char} : OpenSpan x → Flat true (x ++ ['\n'])

variable {leftOpen : Bool} {text : List Char}

/-- Flat text is source text to its end. -/
theorem Flat.source (h : Flat leftOpen text) (n : Nat) :
    sourceFrom true n text = n + text.length := by
  induction h generalizing n with
  | nil => rw [sourceFrom, List.length_nil, Nat.add_zero]
  | @feed leftOpen text _ ih =>
    rw [← List.singleton_append, (over_feed true text).source, ih, List.length_append,
      Nat.add_assoc]
  | @span leftOpen x text hx _ ih =>
    have hlen : (x ++ ['\n'] ++ text).length = (x ++ ['\n']).length + text.length :=
      List.length_append
    rw [← List.singleton_append, ← List.append_assoc, (hx.goesOver text).source, ih, hlen,
      Nat.add_assoc]
  | last hx => exact hx.source n

theorem Flat.comments (h : Flat leftOpen text) : leavesOpen text = leftOpen := by
  induction h with
  | nil => rfl
  | @feed leftOpen text _ ih =>
    rw [← List.singleton_append, (over_feed true text).comments, ih]
  | @span leftOpen x text hx _ ih =>
    rw [← List.singleton_append, ← List.append_assoc, (hx.goesOver text).comments, ih]
  | last hx => exact hx.comments

theorem Begins.dropWhile_feed (h : Begins text) : text.dropWhile (· = '\n') = text := by
  obtain ⟨c, rest, rfl, hlayout, _⟩ := h
  have hfeed : ¬ decide (c = '\n') = true := by
    rw [decide_eq_true_iff]
    rintro rfl
    cases hlayout
  rw [List.dropWhile_cons, if_neg hfeed]

/-- Without the line feeds in front, flat text is empty, or source text begins there. -/
theorem Flat.trim (h : Flat leftOpen text) :
    Flat leftOpen (text.dropWhile (· = '\n')) ∧
      (text.dropWhile (· = '\n') = [] ∨ Begins (text.dropWhile (· = '\n'))) := by
  induction h with
  | nil => exact ⟨.nil, .inl rfl⟩
  | feed _ ih => exact ih
  | @span leftOpen x text hx h _ =>
    rw [(hx.begins text).dropWhile_feed]
    exact ⟨.span hx h, .inr (hx.begins text)⟩
  | last hx =>
    rw [hx.begins.dropWhile_feed]
    exact ⟨.last hx, .inr hx.begins⟩

/-! ## What directives mean is flat -/

mutual

/-- The text of a directive whose source texts are closed, with a line feed behind it, may
stand in front of flat text. -/
theorem flat_meaningOf : ∀ (d : Directive) (names : Names) {text : List Char},
    AllSources (fun x => ClosedSpan x.toList) [d] → Flat leftOpen text →
      Flat leftOpen ((meaningOf d names).1.toList ++ '\n' :: text)
  | .source x, names, text, hd, h => by
      rw [meaningOf]
      exact .span (allSources_source.mp hd) h
  | .define name, names, text, _, h => by
      rw [meaningOf]
      exact .feed h
  | .includeFile name angled, names, text, _, h => by
      rw [meaningOf]
      exact .feed h
  | .block condition name body, names, text, hd, h => by
      rw [meaningOf_block]
      split
      · exact flat_meaning body names (allSources_block.mp hd) (.feed h)
      · exact .feed h

/-- The text of directives whose source texts are closed may stand in front of flat text. -/
theorem flat_meaning : ∀ (ds : List Directive) (names : Names) {text : List Char},
    AllSources (fun x => ClosedSpan x.toList) ds → Flat leftOpen text →
      Flat leftOpen ((meaning ds names).1.toList ++ text)
  | [], names, text, _, h => by
      rw [meaning]
      exact h
  | d :: ds, names, text, hds, h => by
      obtain ⟨hd, hds⟩ := allSources_cons.mp hds
      have hothers := flat_meaning ds (meaningOf d names).2 hds h
      have hfeed : "\n".toList = ['\n'] := rfl
      rw [meaning, String.toList_append, String.toList_append, hfeed, List.append_assoc,
        List.append_assoc, List.singleton_append]
      exact flat_meaningOf d names hd hothers

end

/-- Flattening leaves flat text.  It leaves a comment open if the header does, unless a
directive line does. -/
theorem flat_flatten {source t : String} {names : Names}
    (h : EngineHeader.flatten source names = .ok t) :
    ∃ leftOpen, Flat leftOpen t.toList ∧
      (leavesOpen source.toList = true → leftOpen = true ∨ EndsInOpenLine source) := by
  obtain ⟨ds, htree, rfl⟩ := flatten_eq_ok_iff.mp h
  rcases sources_ofText htree with ⟨hds, hline⟩ | ⟨front, x, rfl, hx, hfront⟩
  · have hflat := flat_meaning ds names hds .nil
    rw [List.append_nil] at hflat
    exact ⟨false, hflat, fun hopen => .inr (hline hopen)⟩
  · have hflat := flat_meaning front names hfront (.last hx)
    refine ⟨true, ?_, fun _ => .inl rfl⟩
    rwa [meaning_concat, meaningOf, String.toList_append, String.toList_append, List.append_assoc]

/-! ## The second pass -/

/-- If nothing is in front of source text but line feeds, then these are the layout. -/
theorem drop_extent_layout (h : layoutUnit (text.dropWhile (· = '\n')) = 0) :
    text.drop (extent layoutUnit text) = text.dropWhile (· = '\n') := by
  induction text with
  | nil => rw [List.drop_nil, List.dropWhile_nil]
  | cons c text ih =>
    rw [List.dropWhile_cons] at h ⊢
    split at h
    · next hc =>
      obtain rfl : c = '\n' := by simpa using hc
      have hunit : layoutUnit ('\n' :: text) = 1 := rfl
      rw [if_pos hc, extent_of_pos (List.cons_ne_nil _ _) (hunit ▸ Nat.one_pos), hunit,
        ← List.drop_drop, List.drop_succ_cons, List.drop_zero, ih h]
    · next hc => rw [if_neg hc, extent_of_eq_zero h, List.drop_zero]

/-- Where source text begins behind the layout, it is the segment that is found. -/
theorem read_of_begins {c : Cursor} (h : Begins (Segment.skipLayout c).rest) :
    ∃ hshorter, Segment.read c =
      .ok (.segment ⟨.source ((Segment.skipLayout c).peek (sourceLength (Segment.skipLayout c).rest)),
          (Segment.skipLayout c).position⟩
        ((Segment.skipLayout c).move (sourceLength (Segment.skipLayout c).rest)) hshorter) := by
  obtain ⟨head, rest, heq, _, hhash, hb, _⟩ := h
  have hne : (Segment.skipLayout c).rest ≠ [] := by
    rw [heq]
    exact List.cons_ne_nil _ _
  have hnot : ¬ opensBlock (Segment.skipLayout c).rest = true := by
    rw [hb]
    exact Bool.false_ne_true
  have hhead : ¬ (Segment.skipLayout c).rest.head hne = '#' := by
    simpa only [heq, List.head_cons] using hhash
  rw [Segment.read, Segment.readHere, dif_neg hne, if_neg hnot, if_neg hhead]
  exact ⟨_, rfl⟩

/-- Where source text begins behind the layout, and goes on to the end, it is the one segment
that is found. -/
theorem scanFrom_of_source {c : Cursor} (h : Begins (Segment.skipLayout c).rest)
    (hwhole : sourceFrom true 0 (Segment.skipLayout c).rest = (Segment.skipLayout c).rest.length) :
    Segment.scanFrom [] c =
      ⟨[⟨.source (String.ofList (Segment.skipLayout c).rest), (Segment.skipLayout c).position⟩],
        none⟩ := by
  obtain ⟨_, hread⟩ := read_of_begins h
  rw [h.sourceFrom_true] at hwhole
  replace hwhole : sourceLength (Segment.skipLayout c).rest = _ := hwhole
  have hbehind : ((Segment.skipLayout c).move (sourceLength (Segment.skipLayout c).rest)).rest =
      [] := by
    rw [Cursor.rest_move, hwhole, List.drop_length]
  rw [Segment.scanFrom, hread]
  dsimp only
  rw [scanFrom_nil hbehind, Cursor.peek, hwhole, List.take_length]
  rfl

/-- Flat text is one segment of source text, or none if there are only line feeds. -/
theorem ofText_of_flat {t : String} (h : Flat leftOpen t.toList) :
    ofText t = .ok (if t.toList.dropWhile (· = '\n') = [] then []
      else [.source (String.ofList (t.toList.dropWhile (· = '\n')))]) := by
  obtain ⟨hflat, hrest⟩ := h.trim
  have hlayout : layoutUnit (t.toList.dropWhile (· = '\n')) = 0 := by
    rcases hrest with hnil | ⟨c, rest, heq, hbegins⟩
    · rw [hnil]
      rfl
    · rw [heq] at hbegins ⊢
      exact (begins_iff.mp ⟨c, rest, rfl, hbegins⟩).1
  have hskip : (Segment.skipLayout (.ofText t)).rest = t.toList.dropWhile (· = '\n') :=
    drop_extent_layout hlayout
  rw [← hskip] at hflat hrest ⊢
  rcases hrest with hnil | hbegins
  · have hscan : Segment.scanText t = ⟨[], none⟩ := scanFrom_of_layout hnil []
    rw [if_pos hnil, ofText, hscan]
    rfl
  · have hwhole := hflat.source 0
    rw [Nat.zero_add] at hwhole
    have hscan : Segment.scanText t = _ := scanFrom_of_source hbegins hwhole
    have hne : (Segment.skipLayout (.ofText t)).rest ≠ [] := by
      obtain ⟨c, rest, heq, _⟩ := hbegins
      rw [heq]
      exact List.cons_ne_nil _ _
    rw [if_neg hne, ofText, hscan]
    rfl

end EngineHeader.Directive

namespace EngineHeader

open Directive

/-- What flattening leaves may be flattened again, where any names are defined.  If it is
only line feeds then nothing is left.  Otherwise the line feeds in front are gone, and there is
one more at the end. -/
theorem flatten_flatten {source t : String} {names : Names} (h : flatten source names = .ok t)
    (others : Names) :
    flatten t others = .ok (if ∀ c ∈ t.toList, c = '\n' then ""
      else String.ofList (t.toList.dropWhile (· = '\n')) ++ "\n") := by
  obtain ⟨leftOpen, hflat, _⟩ := flat_flatten h
  have hfeeds : t.toList.dropWhile (· = '\n') = [] ↔ ∀ c ∈ t.toList, c = '\n' := by
    rw [List.dropWhile_eq_nil_iff]
    simp
  rw [flatten, ofText_of_flat hflat]
  by_cases hall : ∀ c ∈ t.toList, c = '\n'
  · rw [if_pos hall, if_pos (hfeeds.mpr hall)]
    refine congrArg Except.ok ?_
    rw [Directive.flatten, flattenAll_singleton]
    rfl
  · rw [if_neg hall, if_neg (mt hfeeds.mp hall)]
    refine congrArg Except.ok ?_
    rw [Directive.flatten, flattenAll_singleton]
    simp [Flattened.follow, meaning, meaningOf]

/-- A block that is not taken, a number sign in a comment, and a comment that is left open. -/
theorem flatten_flatten_left_open :
    flatten "#define A\n#ifdef A\n#ifdef B\nint b;\n#endif\nint x; // #\n#endif\nint y; /* z" .empty =
        .ok "\n\nint x; // #\n\n\nint y; /* z\n" ∧
      flatten "\n\nint x; // #\n\n\nint y; /* z\n" (.ofList ["B"]) =
        .ok "int x; // #\n\n\nint y; /* z\n\n" := by
  have hfirst : flatten
      "#define A\n#ifdef A\n#ifdef B\nint b;\n#endif\nint x; // #\n#endif\nint y; /* z" .empty =
        .ok "\n\nint x; // #\n\n\nint y; /* z\n" := by cbv
  have htext : ¬ ∀ c ∈ "\n\nint x; // #\n\n\nint y; /* z\n".toList, c = '\n' :=
    fun h => absurd (h 'x' (by decide)) (by decide)
  refine ⟨hfirst, (flatten_flatten hfirst _).trans ?_⟩
  rw [if_neg htext]
  rfl

end EngineHeader
