import EngineHeader.Proofs.Directive.OnePass

/-!
# Cutting in one pass

A header is cut as by a single pass from left to right.  The segments measure layout,
directive lines and source text separately, each in units of its own.  The pass meets
the same units one after the other.

* Layout: one unit is one skipped piece (`cut_extent_layout`).
* A directive line: a unit leaves the pass on the line, and a line feed behind it is
  not escaped by anything inside the unit (`State.Settled`, `code_line`).
* Source text: a unit leaves the pass in the text, with the same flag (`code_source`).

`Told` says that an answer of the reader is the one that the pass gives for the next
segment.  It holds of every answer (`told_read`), and so the whole scan is the one of
the pass (`scanText_eq_cut`).
-/

namespace EngineHeader.Directive.OnePass

open Text

/-! ## Layout -/

/-- White space is one piece. -/
theorem cut_layout {c : Char} (h : isLayout c = true) (text : List Char) :
    cut (c :: text) = (cut text).behind [.skipped [c]] := by
  rw [cut]
  by_cases hc : c = '\n'
  · subst hc
    rw [code]
    rfl
  · have hblank : isBlank c = true := by simpa [isLayout, hc] using h
    rw [code_other (opens_of_isBlank hblank text) hc, State.next]
    simp [State.start, hblank, andThen, cut]

/-- A comment that is closed is one piece. -/
theorem cut_comment {text : List Char} (h : 0 < closedComment text) :
    IsSkippable (text.take (closedComment text)) ∧
      cut text = (cut (text.drop (closedComment text))).behind
        [.skipped (text.take (closedComment text))] := by
  unfold closedComment cut at *
  split
  · rename_i ho
    rw [if_pos ho] at h
    cases hn : blockComment? text with
    | none =>
      rw [hn] at h
      cases h
    | some n =>
      rw [Option.getD_some, code_of_closed hn]
      refine ⟨.inr (.inl (blockComment_take hn)), ?_⟩
      simp [andThen, State.endComment, State.pushAll, State.start]
  · rename_i ho
    rw [if_neg ho] at h
    split
    · rename_i hl
      refine ⟨.inr (.inr (opensLine_take hl)), ?_⟩
      rw [code_of_line hl, code_drop_lineLength rfl]
      simp [andThen, State.endComment, State.pushAll, State.start]
    · rename_i hl
      rw [if_neg hl] at h
      cases h

/-- One unit of layout is one piece. -/
theorem cut_layoutUnit {text : List Char} (h : 0 < layoutUnit text) :
    IsSkippable (text.take (layoutUnit text)) ∧
      cut text = (cut (text.drop (layoutUnit text))).behind
        [.skipped (text.take (layoutUnit text))] := by
  cases text with
  | nil => cases h
  | cons c text =>
    simp only [layoutUnit, List.head?_cons] at h ⊢
    split
    · rename_i hlayout
      exact ⟨.inl ⟨c, rfl, hlayout⟩, cut_layout hlayout text⟩
    · rename_i hlayout
      rw [if_neg hlayout] at h
      exact cut_comment h

/-- All layout at the head of a text is skipped. -/
theorem cut_extent_layout (text : List Char) :
    ∃ ps, Skips ps ∧ textOf ps = text.take (extent layoutUnit text) ∧
      cut text = (cut (text.drop (extent layoutUnit text))).behind ps := by
  rcases Nat.eq_zero_or_pos (layoutUnit text) with hzero | hpos
  · rw [extent_of_eq_zero hzero]
    exact ⟨[], skips_nil, rfl, rfl⟩
  · have hne : text ≠ [] := by
      rintro rfl
      cases hpos
    have hlt := length_drop_lt hne hpos
    obtain ⟨hskip, hcut⟩ := cut_layoutUnit hpos
    obtain ⟨ps, hps, htext, hrest⟩ := cut_extent_layout (text.drop (layoutUnit text))
    have hfirst : Skips [.skipped (text.take (layoutUnit text))] := by
      intro p hp
      exact ⟨_, List.mem_singleton.mp hp, hskip⟩
    refine ⟨_, hfirst.append hps, ?_, ?_⟩
    · rw [extent_of_pos hne hpos, List.take_add, ← htext]
      rfl
    · rw [hcut, hrest, Cut.behind_behind, extent_of_pos hne hpos, List.drop_drop]
termination_by text.length

theorem isLayout_of_layoutUnit {c : Char} {text : List Char} (h : layoutUnit (c :: text) = 0) :
    isLayout c = false ∧ closedComment (c :: text) = 0 := by
  simp only [layoutUnit, List.head?_cons] at h
  split at h
  · cases h
  · rename_i hlayout
    exact ⟨by simpa using hlayout, h⟩

/-- A block comment that is not layout is not closed. -/
theorem unclosed_of_layoutUnit {text : List Char} (ho : opensBlock text = true)
    (h : layoutUnit text = 0) : blockComment? text = none := by
  obtain ⟨inside, rfl⟩ := eq_of_opensBlock ho
  obtain ⟨-, hclosed⟩ := isLayout_of_layoutUnit h
  rw [closedComment, if_pos ho] at hclosed
  cases hn : blockComment? ('/' :: '*' :: inside) with
  | none => rfl
  | some n =>
    have := blockComment_pos hn
    rw [hn, Option.getD_some] at hclosed
    omega

/-! ## Directive lines -/

/-- Whether a line feed is escaped is settled by the text from here on: neither a line
feed here, nor one behind a carriage return here, is escaped by what stands in front. -/
structure State.Settled (s : State) (text : List Char) : Prop where
  feed : ∀ rest, text = '\n' :: rest → s.escapes = false
  carriage : ∀ rest, text = '\r' :: '\n' :: rest → s.taken.head? ≠ some '\\'

theorem State.settled_of_head {s : State} {c : Char} {taken : List Char}
    (h : s.taken = c :: taken) (hb : c ≠ '\\') (hr : c ≠ '\r') (text : List Char) :
    s.Settled text where
  feed rest _ := by
    unfold State.escapes
    rw [h]
    split
    · rename_i heq
      exact absurd (List.cons.inj heq).1 hb
    · rename_i heq
      exact absurd (List.cons.inj heq).1 hr
    · rfl
  carriage rest _ := by
    rw [h]
    intro heq
    exact hb (Option.some.inj heq)

theorem State.Settled.push {s : State} {c : Char} {text : List Char} (h : s.Settled (c :: text))
    (hfeed : ∀ rest, c = '\\' → text = '\n' :: rest → False)
    (hcarriage : ∀ rest, c = '\\' → text = '\r' :: '\n' :: rest → False) :
    (s.push c).Settled text where
  feed rest htext := by
    unfold State.escapes
    split
    · rename_i heq
      exact absurd htext (hfeed rest (List.cons.inj heq).1)
    · rename_i heq
      obtain ⟨rfl, htaken⟩ := List.cons.inj heq
      exact absurd (by rw [htaken]; rfl) (h.carriage rest (by rw [htext]))
    · rfl
  carriage rest htext heq := hcarriage rest (Option.some.inj heq) htext

/-- Any character of a directive line that opens no comment and does not end the line. -/
theorem code_push {s : State} (hs : s.inside = .directive) {c : Char} {text : List Char}
    (h : opensBlock (c :: text) = false ∧ opensLine (c :: text) = false) (hc : c ≠ '\n') :
    code s (c :: text) = code (s.push c) text := by
  rw [code_other h hc, State.next, hs]
  rfl

/-- A line feed on a directive line that is escaped. -/
theorem code_escaped {s : State} (hs : s.escapes = true) (text : List Char) :
    code s ('\n' :: text) = code (s.push '\n') text := by
  rw [code, if_pos hs]

/-- A block comment on a directive line. -/
theorem code_blockUnit {s : State} (hs : s.inside = .directive) {n : Nat} {text : List Char}
    (h : blockComment? text = some n) :
    code s text = code (s.pushAll (text.take n)) (text.drop n) ∧
      (s.pushAll (text.take n)).Settled (text.drop n) := by
  obtain ⟨front, hfront⟩ := take_blockComment h
  have hinside : (s.pushAll (text.take n)).inside ≠ .neither := by simp [State.pushAll, hs]
  have htaken : (s.pushAll (text.take n)).taken = '/' :: (front.reverse ++ s.taken) := by
    simp [State.pushAll, hfront]
  constructor
  · rw [code_of_closed h, State.endComment_of_ne hinside, andThen_nil]
  · exact State.settled_of_head htaken (by decide) (by decide) _

/-- A unit of a directive line leaves the pass on the line, unless it is a comment that
takes all that is left. -/
theorem code_lineUnit {s : State} (hs : s.inside = .directive) {text : List Char}
    (h : s.Settled text) (hpos : 0 < lineUnit text) (hl : opensLine text = false)
    (hclosed : opensBlock text = true → blockComment? text ≠ none) :
    code s text = code (s.pushAll (text.take (lineUnit text))) (text.drop (lineUnit text)) ∧
      (s.pushAll (text.take (lineUnit text))).Settled (text.drop (lineUnit text)) := by
  fun_cases lineUnit text with
  | case1 => cases hpos
  | case2 rest => cases hpos
  | case3 rest =>
    have hescapes : (s.push '\\').escapes = true := by simp [State.escapes, State.push, hs]
    constructor
    · rw [code_push hs ⟨rfl, rfl⟩ (by decide), code_escaped hescapes]
      rfl
    · exact State.settled_of_head rfl (by decide) (by decide) rest
  | case4 rest =>
    have hinside : (s.push '\\').inside = .directive := hs
    have hescapes : ((s.push '\\').push '\r').escapes = true := by
      simp [State.escapes, State.push, hs]
    constructor
    · rw [code_push hs ⟨rfl, rfl⟩ (by decide), code_push hinside ⟨rfl, rfl⟩ (by decide),
        code_escaped hescapes]
      rfl
    · exact State.settled_of_head rfl (by decide) (by decide) rest
  | case5 text h₁ h₂ h₃ h₄ =>
    rw [commentLength]
    cases hb : opensBlock text with
    | true =>
      cases hn : blockComment? text with
      | none => exact absurd hn (hclosed hb)
      | some n =>
        rw [if_pos rfl, Option.getD_some, Nat.max_eq_right (blockComment_pos hn)]
        exact code_blockUnit hs hn
    | false =>
      cases text with
      | nil => exact absurd rfl h₁
      | cons c text =>
        have hc : c ≠ '\n' := by
          rintro rfl
          exact h₂ text rfl
        rw [if_neg Bool.false_ne_true, hl, if_neg Bool.false_ne_true]
        constructor
        · exact code_push hs ⟨hb, hl⟩ hc
        · refine State.Settled.push h ?_ ?_
          · rintro rest rfl rfl
            exact h₃ rest rfl
          · rintro rest rfl rfl
            exact h₄ rest rfl

theorem lineUnit_of_line {text : List Char} (h : opensLine text = true) :
    lineUnit text = lineLength text := by
  obtain ⟨inside, rfl⟩ := eq_of_opensLine h
  simp [lineUnit, commentLength, opensBlock, opensLine, lineLength]

theorem lineUnit_of_unclosed {text : List Char} (ho : opensBlock text = true)
    (h : blockComment? text = none) : lineUnit text = text.length := by
  obtain ⟨inside, rfl⟩ := eq_of_opensBlock ho
  simp [lineUnit, commentLength, opensBlock, h]

theorem eq_of_lineUnit_eq_zero {text : List Char} (h : lineUnit text = 0) :
    text = [] ∨ ∃ rest, text = '\n' :: rest := by
  fun_cases lineUnit text with
  | case1 => exact .inl rfl
  | case2 rest => exact .inr ⟨rest, rfl⟩
  | case3 rest => cases h
  | case4 rest => cases h
  | case5 text h₁ h₂ h₃ h₄ =>
    rw [lineUnit.eq_5 text h₁ h₂ h₃ h₄] at h
    omega

/-- The pass over what is left of a directive line.  A line feed behind a line comment ends the line
even if a backslash stands in front. -/
theorem code_line {s : State} (hs : s.inside = .directive) {text : List Char}
    (h : s.Settled text) :
    code s text =
      atLineEnd (s.pushAll (text.take (extent lineUnit text)))
        (text.drop (extent lineUnit text)) := by
  rcases Nat.eq_zero_or_pos (lineUnit text) with hzero | hpos
  · rw [extent_of_eq_zero hzero]
    rcases eq_of_lineUnit_eq_zero hzero with rfl | ⟨rest, rfl⟩
    · rw [code]
      rfl
    · rw [code, h.feed rest rfl]
      rfl
  have hne : text ≠ [] := by
    rintro rfl
    cases hpos
  cases hl : opensLine text with
  | true =>
    have hinside : (s.pushAll (text.take (lineLength text))).inside ≠ .neither := by
      simp [State.pushAll, hs]
    have hend : lineUnit (text.drop (lineLength text)) = 0 := by
      rcases drop_lineLength text with h | ⟨rest, h⟩
      · rw [h]
        rfl
      · rw [h]
        rfl
    rw [extent_of_pos hne hpos, lineUnit_of_line hl, extent_of_eq_zero hend, Nat.add_zero,
      code_of_line hl, State.endComment_of_ne hinside, andThen_nil]
  | false =>
    by_cases hclosed : opensBlock text = true → blockComment? text ≠ none
    · obtain ⟨hunit, hsettled⟩ := code_lineUnit hs h hpos hl hclosed
      have hlt := length_drop_lt hne hpos
      have hinside : (s.pushAll (text.take (lineUnit text))).inside = .directive := hs
      rw [hunit, code_line hinside hsettled, extent_of_pos hne hpos, ← State.pushAll_append,
        ← List.take_add, List.drop_drop]
    · obtain ⟨ho, hn⟩ : opensBlock text = true ∧ blockComment? text = none := by
        simpa using hclosed
      rw [extent_of_pos hne hpos, lineUnit_of_unclosed ho hn, List.drop_length, extent_nil,
        Nat.add_zero, List.take_length, List.drop_length, code_of_unclosed ho hn]
      rfl
termination_by text.length

/-- A directive line at the head of a text, with the line feed behind it. -/
theorem code_hash (rest : List Char) :
    ∃ ended, cut ('#' :: rest) =
        (cut (('#' :: rest).drop (extent lineUnit ('#' :: rest) + 1))).behind
          [.directive (('#' :: rest).take (extent lineUnit ('#' :: rest))) ended] ∧
      (Piece.directive (('#' :: rest).take (extent lineUnit ('#' :: rest))) ended).text =
        ('#' :: rest).take (extent lineUnit ('#' :: rest) + 1) := by
  have hsettled : State.Settled ⟨true, .directive, ['#']⟩ rest :=
    State.settled_of_head rfl (by decide) (by decide) rest
  have hcode : cut ('#' :: rest) =
      atLineEnd (State.pushAll ⟨true, .directive, ['#']⟩ (rest.take (extent lineUnit rest)))
        (rest.drop (extent lineUnit rest)) := by
    rw [← code_line rfl hsettled]
    exact code_other ⟨rfl, rfl⟩ (by decide) _
  simp only [hcode, extent_lineUnit_hash, List.take_succ_cons, List.drop_succ_cons]
  rcases eq_of_lineUnit_eq_zero (unit_drop_extent rfl rest) with hnil | ⟨behind, hbehind⟩
  · refine ⟨false, ?_, ?_⟩
    · rw [hnil, ← List.drop_drop, hnil, atLineEnd]
      simp [State.finish, State.pushAll, cut, code, State.start, Cut.behind]
    · have hle : rest.length ≤ extent lineUnit rest := List.drop_eq_nil_iff.mp hnil
      rw [Piece.text, List.take_of_length_le hle, List.take_of_length_le (by omega)]
      rfl
  · refine ⟨true, ?_, ?_⟩
    · rw [hbehind, ← List.drop_drop, hbehind, atLineEnd]
      simp [State.endLine, State.pushAll, andThen, cut]
    · rw [Piece.text, if_pos rfl, List.take_add, hbehind]
      rfl

/-! ## Source text -/

/-- A comment in source text. -/
theorem code_comment {s : State} (hs : s.inside = .source) {k : Nat} {text : List Char}
    (h : commentLength text = k + 1) :
    code s text = code (s.pushAll (text.take (k + 1))) (text.drop (k + 1)) := by
  have hinside (t : List Char) : (s.pushAll t).inside ≠ .neither := by simp [State.pushAll, hs]
  unfold commentLength at h
  split at h
  · rename_i ho
    cases hn : blockComment? text with
    | none =>
      rw [hn, Option.getD_none] at h
      rw [code_of_unclosed ho hn, ← h, List.take_length, List.drop_length, code]
    | some n =>
      rw [hn, Option.getD_some] at h
      rw [code_of_closed hn, State.endComment_of_ne (hinside _), andThen_nil, h]
  · split at h
    · rename_i hl
      have hescapes (t : List Char) : (s.pushAll t).escapes = false := by
        simp [State.escapes, State.pushAll, hs]
      rw [code_of_line hl, State.endComment_of_ne (hinside _), andThen_nil,
        ← code_drop_lineLength (hescapes _), h]
    · cases h

/-- Source text is a part of it and then the rest. -/
theorem code_source_of_part {text taken : List Char} {fresh : Bool} {j k : Nat} {s : State}
    (hpart : code s text = code ⟨fresh, .source, (text.take j).reverse ++ taken⟩ (text.drop j))
    (hrest : code ⟨fresh, .source, (text.take j).reverse ++ taken⟩ (text.drop j) =
      (cut ((text.drop j).drop k)).behind
        [.source (((text.take j).reverse ++ taken).reverse ++ (text.drop j).take k)]) :
    code s text =
      (cut (text.drop (j + k))).behind [.source (taken.reverse ++ text.take (j + k))] := by
  rw [hpart, hrest, List.drop_drop, List.take_add, List.reverse_append, List.reverse_reverse,
    List.append_assoc]

/-- The pass over what is left of source text. -/
theorem code_source {fresh : Bool} {n k : Nat} {text : List Char}
    (h : sourceFrom fresh n text = n + k) (taken : List Char) :
    code ⟨fresh, .source, taken⟩ text =
      (cut (text.drop k)).behind [.source (taken.reverse ++ text.take k)] := by
  fun_induction sourceFrom fresh n text generalizing k taken with
  | case1 fresh n =>
    obtain rfl : k = 0 := by omega
    rw [code, List.take_nil, List.append_nil, List.drop_nil, cut, code]
    rfl
  | case2 fresh n text ih =>
    have := sourceFrom_ge true (n + 1) text
    obtain ⟨k, rfl⟩ : ∃ j, k = 1 + j := ⟨k - 1, by omega⟩
    refine code_source_of_part ?_ (ih (by omega) _)
    rw [code]
    rfl
  | case3 fresh n c text hc hblank ih =>
    have := sourceFrom_ge fresh (n + 1) text
    obtain ⟨k, rfl⟩ : ∃ j, k = 1 + j := ⟨k - 1, by omega⟩
    refine code_source_of_part ?_ (ih (by omega) _)
    rw [code_other (opens_of_isBlank hblank text) hc, State.next]
    dsimp only
    rw [if_pos hblank]
    rfl
  | case4 fresh n c text hc hblank j hj ih =>
    have := sourceFrom_ge fresh (n + (j + 1)) (text.drop j)
    obtain ⟨k, rfl⟩ : ∃ i, k = j + 1 + i := ⟨k - (j + 1), by omega⟩
    refine code_source_of_part ?_ (ih (by omega) _)
    exact code_comment rfl hj
  | case5 fresh n c text hc hblank hz hhash =>
    obtain rfl : k = 0 := by omega
    obtain ⟨hfresh, rfl⟩ : fresh = true ∧ c = '#' := by simpa using hhash
    subst hfresh
    rw [code_other ⟨rfl, rfl⟩ hc, List.drop_zero, cut, code_other ⟨rfl, rfl⟩ hc, List.take_zero,
      List.append_nil]
    rfl
  | case6 fresh n c text hc hblank hz hhash ih =>
    have := sourceFrom_ge false (n + 1) text
    obtain ⟨k, rfl⟩ : ∃ j, k = 1 + j := ⟨k - 1, by omega⟩
    refine code_source_of_part ?_ (ih (by omega) _)
    rw [code_other (opens_of_commentLength (List.cons_ne_nil _ _) hz) hc, State.next]
    dsimp only
    rw [if_neg hblank, if_neg hhash]
    rfl

/-- Before a segment, a character that is not layout is read as it is in source text. -/
theorem cut_significant {c : Char} {text : List Char} (h : layoutUnit (c :: text) = 0)
    (hb : opensBlock (c :: text) = false) (hc : c ≠ '#') :
    cut (c :: text) = code ⟨false, .source, []⟩ (c :: text) := by
  obtain ⟨hlayout, hclosed⟩ := isLayout_of_layoutUnit h
  obtain ⟨hblank, hfeed⟩ : isBlank c = false ∧ c ≠ '\n' := by simpa [isLayout] using hlayout
  have hl : opensLine (c :: text) = false := by
    cases hl : opensLine (c :: text) with
    | false => rfl
    | true =>
      have := lineLength_pos hl
      rw [closedComment, hb, if_neg Bool.false_ne_true, if_pos hl] at hclosed
      omega
  rw [cut, code_other ⟨hb, hl⟩ hfeed, code_other ⟨hb, hl⟩ hfeed]
  simp [State.next, State.start, State.push, hblank, hc]

/-! ## Agreement -/

/-- The answer for a cursor is the one that the pass gives: layout and a block comment
that is not closed, or layout alone, or layout and one segment in front of the rest. -/
inductive Told (c : Cursor) : Except Error (Found c) → Prop where
  | unclosed {ps : List Piece} {rest : List Char} :
    Skips ps → cut c.rest = ⟨ps, rest⟩ → textOf ps ++ rest = c.rest → opensBlock rest = true →
    blockComment? rest = none →
    Told c (.error (.unrecognized (c.position.advance (textOf ps)) "/*"))
  | nothing {ps : List Piece} {behind : Cursor} :
    Skips ps → cut c.rest = ⟨ps, []⟩ → textOf ps = c.rest → Told c (.ok (.nothing behind))
  | segment {ps : List Piece} {p : Piece} {s : Segment} {behind : Cursor} {n : Nat}
    {h : behind.rest.length < c.rest.length} :
    Skips ps → behind = c.move n → cut c.rest = (cut behind.rest).behind (ps ++ [p]) →
    textOf (ps ++ [p]) = c.rest.take n →
    segmentsFrom (c.position.advance (textOf ps)) [p] = [s] →
    Told c (.ok (.segment s behind h))

theorem told_readHere {c : Cursor} (h : layoutUnit c.rest = 0) : Told c (Segment.readHere c) := by
  rw [Segment.readHere]
  split
  · rename_i hnil
    refine .nothing skips_nil ?_ ?_
    · rw [hnil]
      rfl
    · rw [hnil]
      rfl
  rename_i hne
  split
  · rename_i ho
    have hn : blockComment? c.rest = none := unclosed_of_layoutUnit ho h
    have hpeek : c.peek 2 = "/*" := by
      obtain ⟨inside, heq⟩ := eq_of_opensBlock ho
      rw [Cursor.peek, heq]
      rfl
    rw [hpeek]
    have hcut : cut c.rest = ⟨[], c.rest⟩ := by
      rw [cut, code_of_unclosed ho hn]
      simp [State.finish, State.pushAll, State.start]
    exact .unclosed skips_nil hcut rfl ho hn
  rename_i ho
  obtain ⟨head, rest, heq⟩ := List.exists_cons_of_ne_nil hne
  split
  · rename_i hhash
    simp only [heq, List.head_cons] at hhash
    subst hhash
    obtain ⟨ended, hcut, htext⟩ := code_hash rest
    rw [← heq] at hcut htext
    exact .segment skips_nil rfl hcut (by simpa [textOf] using htext) rfl
  · rename_i hhash
    refine .segment (p := .source (c.rest.take (sourceLength c.rest))) skips_nil rfl ?_ ?_ rfl
    · have hhead : head ≠ '#' := by simpa only [heq, List.head_cons] using hhash
      rw [Cursor.rest_move]
      rw [heq] at h ho ⊢
      rw [cut_significant h (by simpa using ho) hhead]
      exact code_source (Nat.zero_add _).symm []
    · simp [textOf, Piece.text]

theorem told_read (c : Cursor) : Told c (Segment.read c) := by
  obtain ⟨ps, hps, htext, hcut⟩ := cut_extent_layout c.rest
  have hbehind : c.rest.drop (extent layoutUnit c.rest) = (Segment.skipLayout c).rest := rfl
  have htold := told_readHere (c := Segment.skipLayout c) (unit_drop_extent rfl c.rest)
  have hwhole : textOf ps ++ (Segment.skipLayout c).rest = c.rest := by
    rw [htext]
    exact List.take_append_drop ..
  have hposition (qs : List Piece) : (Segment.skipLayout c).position.advance (textOf qs) =
      c.position.advance (textOf (ps ++ qs)) := by
    rw [textOf_append, Position.advance_append, htext]
    rfl
  rw [Segment.read]
  generalize Segment.readHere (Segment.skipLayout c) = found at htold ⊢
  cases htold with
  | unclosed hqs hrest hqtext ho hn =>
    rw [hposition]
    refine .unclosed (hps.append hqs) ?_ ?_ ho hn
    · rw [hcut, hbehind, hrest, Cut.behind]
    · rw [textOf_append, List.append_assoc, hqtext, hwhole]
  | nothing hqs hrest hqtext =>
    refine .nothing (hps.append hqs) ?_ ?_
    · rw [hcut, hbehind, hrest, Cut.behind]
    · rw [textOf_append, hqtext, hwhole]
  | @segment qs p s behind n h hqs hmove hrest hqtext hs =>
    refine .segment (p := p) (hps.append hqs) (hmove.trans (c.move_move _ _)) ?_ ?_ ?_
    · rw [hcut, hbehind, hrest, Cut.behind_behind, List.append_assoc]
    · rw [List.append_assoc, textOf_append, hqtext, htext, List.take_add]
      rfl
    · rw [← hposition, hs]

/-- The scan from a cursor on is the one of the pass. -/
theorem scanFrom_eq_cut (taken : List Segment) (c : Cursor) :
    Segment.scanFrom taken c =
      ⟨taken.reverse ++ ((cut c.rest).scan c.position).items,
        ((cut c.rest).scan c.position).error?⟩ := by
  fun_induction Segment.scanFrom taken c with
  | case1 taken c e hread =>
    have htold := told_read c
    rw [hread] at htold
    cases htold with
    | @unclosed ps rest hps hcut _ ho _ =>
      have hne : rest ≠ [] := by
        rintro rfl
        cases ho
      rw [hcut, Cut.scan, hps.segmentsFrom, if_neg hne, List.append_nil]
  | case2 taken c behind hread =>
    have htold := told_read c
    rw [hread] at htold
    cases htold with
    | nothing hps hcut _ =>
      rw [hcut, Cut.scan, hps.segmentsFrom, if_pos rfl, List.append_nil]
  | case3 taken c s behind _ hread ih =>
    have htold := told_read c
    rw [hread] at htold
    cases htold with
    | @segment ps p _ _ n _ hps hmove hcut htext hs =>
      have hposition : behind.position = c.position.advance (textOf (ps ++ [p])) := by
        rw [htext, hmove]
        rfl
      rw [ih, hcut, Cut.scan_behind, segmentsFrom_append, hps.segmentsFrom, hs, ← hposition]
      simp

/-- What the pass makes of a text covers the text. -/
theorem covers_cut (text : List Char) : (cut text).Covers text := by
  have htold := told_read ⟨text, .start⟩
  generalize Segment.read ⟨text, .start⟩ = found at htold
  cases htold with
  | unclosed hps hcut htext ho hn =>
    rw [show cut text = _ from hcut]
    exact ⟨htext, fun t ht => hps.isSkippable ht, .inr ⟨ho, hn⟩⟩
  | nothing hps hcut htext =>
    rw [show cut text = _ from hcut]
    exact ⟨by rw [List.append_nil, htext], fun t ht => hps.isSkippable ht, .inl rfl⟩
  | @segment ps p s behind n h hps hmove hcut htext hs =>
    obtain ⟨hbehind, hskipped, hunclosed⟩ := covers_cut behind.rest
    rw [show cut text = _ from hcut]
    refine ⟨?_, ?_, hunclosed⟩
    · rw [Cut.behind, textOf_append, htext, List.append_assoc, hbehind, hmove]
      exact List.take_append_drop ..
    · intro t ht
      rcases List.mem_append.mp ht with ht | ht
      · rcases List.mem_append.mp ht with ht | ht
        · exact hps.isSkippable ht
        · rw [← List.mem_singleton.mp ht] at hs
          cases hs
      · exact hskipped t ht
termination_by text.length

/-- A header is cut into segments as by one pass from left to right, and the scan fails
exactly if the pass leaves over a block comment.  The pass covers the text, and the scan
comes to the end exactly if the pieces alone are the text. -/
theorem scanText_eq_cut (source : String) :
    Segment.scanText source = (cut source.toList).scan .start ∧
      (cut source.toList).Covers source.toList ∧
      ((Segment.scanText source).error? = none ↔
        textOf (cut source.toList).pieces = source.toList) := by
  have hscan : Segment.scanText source = (cut source.toList).scan .start :=
    scanFrom_eq_cut [] (.ofText source)
  have hcovers := covers_cut source.toList
  refine ⟨hscan, hcovers, ?_⟩
  have herror : (Segment.scanText source).error? = none ↔ (cut source.toList).unclosed = [] := by
    rw [hscan, Cut.scan]
    simp
  rw [herror]
  constructor
  · intro hnil
    have htext := hcovers.text
    rwa [hnil, List.append_nil] at htext
  · intro htext
    exact List.append_right_eq_self.mp (htext ▸ hcovers.text)

/-- A number sign behind a comment of two lines begins a directive line, and a line feed
that is escaped does not end it. -/
example : cut ['/', '*', '\n', '*', '/', '#', 'a', '\\', '\n', 'b', '\n', 'c', '#'] =
    ⟨[.skipped ['/', '*', '\n', '*', '/'], .directive ['#', 'a', '\\', '\n', 'b'] true,
      .source ['c', '#']], []⟩ := by decide

end EngineHeader.Directive.OnePass
