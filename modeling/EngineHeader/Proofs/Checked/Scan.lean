import EngineHeader.Directive.Segment
import EngineHeader.Proofs.Checked.Slice
import EngineHeader.Proofs.Directive.Cutting
import EngineHeader.Proofs.Directive.Plain

/-!
# Measuring by bytes

The lengths that the directive scanner needs, measured by bytes: of the white space and the comments
in front of a segment (`trivia`), of a directive line (`lineEnd`) and of source text
(`directiveStart`).  Each is a loop over an index.  A round looks at the bytes from the index on,
and at the text behind the opening of a block comment, and both are checked.

The rounds meet only indices in the text.  A round that goes byte by byte comes into the middle of a
character, but all bytes there are skipped in the same way, and no text is cut before the next
character begins (`iterate_character`).  So the results are the sizes of what is measured by
characters (`trivia_eq`, `lineEnd_eq`, `directiveStart_eq`).
-/

namespace EngineHeader.Checked

open Text Directive

variable {c : Char} {text front rest : List Char}

/-! ## Classes of characters -/

theorem isAscii_of_isLayout (h : isLayout c = true) : isAscii c = true := by
  simp only [isLayout, isBlank, Bool.or_eq_true, beq_iff_eq] at h
  rcases h with ((((rfl | rfl) | rfl) | rfl) | rfl) | rfl
  all_goals rfl

theorem uniform_isLayout : Uniform isLayout := uniform_of_isAscii fun _ => isAscii_of_isLayout

/-- All characters but the line feed. -/
theorem uniform_ne_feed : Uniform (· != '\n') := by
  refine ⟨true, fun c hc => ?_⟩
  rw [bne_iff_ne]
  rintro rfl
  cases hc

theorem opensBlock_bytes (text : List Char) : opensBlock (bytes text) = opensBlock text := by
  have hpattern (text : List Char) : opensBlock text = ['/', '*'].isPrefixOf text := by
    rw [Bool.eq_iff_iff, List.isPrefixOf_iff_prefix]
    constructor
    · intro h
      obtain ⟨inside, rfl⟩ := eq_of_opensBlock h
      exact ⟨inside, rfl⟩
    · rintro ⟨inside, rfl⟩
      rfl
  rw [hpattern, hpattern, isPrefixOf_bytes rfl]

theorem opensLine_bytes (text : List Char) : opensLine (bytes text) = opensLine text := by
  have hpattern (text : List Char) : opensLine text = ['/', '/'].isPrefixOf text := by
    rw [Bool.eq_iff_iff, List.isPrefixOf_iff_prefix]
    constructor
    · intro h
      obtain ⟨inside, rfl⟩ := eq_of_opensLine h
      exact ⟨inside, rfl⟩
    · rintro ⟨inside, rfl⟩
      rfl
  rw [hpattern, hpattern, isPrefixOf_bytes rfl]

/-! ## Comments -/

/-- The bytes up to the next line feed. -/
theorem lineLength_bytes (text : List Char) :
    lineLength (bytes text) = size (text.take (lineLength text)) := by
  rw [take_lineLength, size, ← takeWhile_bytes uniform_ne_feed]
  rfl

/-- The star and the slash that close a block comment. -/
def closing : List Char := ['*', '/']

/-- A comment ends behind the star and the slash that are found. -/
theorem find?_closing (n : Nat) (text : List Char) :
    (find? closing text).map (· + 2) =
      (closingFrom n text).map fun m => size (text.take (m - n)) := by
  fun_induction closingFrom n text with
  | case1 n => rfl
  | case2 n text =>
    have htake : ('*' :: '/' :: text).take (n + 2 - n) = ['*', '/'] := by
      rw [Nat.add_sub_cancel_left]
      rfl
    rw [Option.map_some, htake]
    rfl
  | case3 n c text hne ih =>
    have hpattern : closing.isPrefixOf (c :: text) = false := by
      rw [Bool.eq_false_iff, ne_eq, List.isPrefixOf_iff_prefix]
      rintro ⟨behind, heq⟩
      obtain ⟨rfl, rfl⟩ := List.cons.inj heq.symm
      exact hne behind rfl rfl
    rw [find?_cons, hpattern, if_neg Bool.false_ne_true]
    cases hclosed : closingFrom (n + 1) text with
    | none =>
      rw [hclosed, Option.map_none, Option.map_eq_none_iff] at ih
      rw [ih]
      rfl
    | some m =>
      rw [hclosed] at ih
      obtain ⟨k, hk, hsize⟩ := Option.map_eq_some_iff.mp ih
      dsimp only at hsize
      have hge := closingFrom_ge hclosed
      have htake : (c :: text).take (m - n) = c :: text.take (m - (n + 1)) := by
        rw [show m - n = (m - (n + 1)) + 1 by omega, List.take_succ_cons]
      rw [hk, Option.map_some, Option.map_some, Option.map_some, htake, size_cons, ← hsize,
        Nat.add_assoc]

/-- The end of the block comment that begins here, if it is closed, and where its inside begins. -/
theorem find?_block (inside : List Char) :
    (find? closing inside).map (· + 4) =
      (blockComment? ('/' :: '*' :: inside)).map fun n => size (('/' :: '*' :: inside).take n) := by
  have hclosing := find?_closing 0 inside
  rw [blockComment?, closing?]
  cases hclosed : closingFrom 0 inside with
  | none =>
    rw [hclosed, Option.map_none, Option.map_eq_none_iff] at hclosing
    rw [hclosing]
    rfl
  | some m =>
    rw [hclosed] at hclosing
    obtain ⟨k, hk, hsize⟩ := Option.map_eq_some_iff.mp hclosing
    dsimp only [Nat.sub_zero] at hsize
    rw [hk, Option.map_some, Option.map_some, Option.map_some, List.take_succ_cons,
      List.take_succ_cons, size_cons, size_cons, ← hsize]
    have hslash : '/'.utf8Size = 1 := rfl
    have hstar : '*'.utf8Size = 1 := rfl
    exact congrArg some (by omega)

/-- The bytes of the comment that begins at an index, or none.  A block comment that is never closed
takes the whole text. -/
def comment? (text : List Char) (i : Nat) (here : List Char) : Option Nat :=
  if opensBlock here then
    (from? text (i + 2)).map fun inside => ((find? closing inside).map (· + 4)).getD here.length
  else if opensLine here then some (lineLength here)
  else some 0

theorem from?_block (front inside : List Char) :
    from? (front ++ '/' :: '*' :: inside) (size front + 2) = some inside := by
  have hfrom := from?_append (front ++ ['/', '*']) inside
  rw [List.append_assoc, size_append] at hfrom
  exact hfrom

theorem comment?_eq (front rest : List Char) :
    comment? (front ++ rest) (size front) (bytes rest) =
      some (size (rest.take (commentLength rest))) := by
  rw [comment?, opensBlock_bytes, opensLine_bytes, commentLength]
  split
  · next hblock =>
    obtain ⟨inside, rfl⟩ := eq_of_opensBlock hblock
    rw [from?_block, Option.map_some, find?_block]
    cases blockComment? ('/' :: '*' :: inside) with
    | none =>
      rw [Option.map_none, Option.getD_none, Option.getD_none, List.take_length]
      rfl
    | some n => rfl
  split
  · rw [lineLength_bytes]
  · rfl

/-! ## Rounds -/

variable {σ α : Type} {left : σ → Nat} {step : σ → Option (Step σ α)}

/-- Of the bytes of a character only the first may be an ASCII character. -/
theorem bytesOf_eq_cons (c : Char) :
    ∃ b bs, bytesOf c = b :: bs ∧ ∀ x ∈ bs, isAscii x = false := by
  cases hc : isAscii c with
  | true => exact ⟨c, [], bytesOf_of_isAscii hc, List.forall_mem_nil _⟩
  | false =>
    obtain ⟨b, bs, hbytes⟩ := exists_bytesOf c
    refine ⟨b, bs, hbytes, fun x hx => isAscii_of_mem_bytesOf hc x ?_⟩
    rw [hbytes]
    exact List.mem_cons_of_mem b hx

/-- A loop that skips a byte of a character skips the rest of them.  The induction is on the bytes
that are left of the character, and none of them is ASCII. -/
theorem iterate_character (state : Nat → σ)
    (hstep : ∀ i b post, (bytes text).drop i = b :: post → isAscii b = false →
      step (state i) = some (.next (state (i + 1))))
    (hleft : ∀ i, left (state i) = size text - i) (h : text = front ++ c :: rest) :
    iterate left step (state (size front + 1)) =
      iterate left step (state (size (front ++ [c]))) := by
  have hskip : ∀ bs post i, (∀ x ∈ bs, isAscii x = false) → (bytes text).drop i = bs ++ post →
      iterate left step (state i) = iterate left step (state (i + bs.length)) := by
    intro bs
    induction bs with
    | nil =>
      intro _ _ _ _
      rfl
    | cons b bs ih =>
      intro post i hbytes hdrop
      obtain ⟨hb, hbs⟩ := List.forall_mem_cons.mp hbytes
      have hlt : i < size text := by
        have hlength := congrArg List.length hdrop
        rw [List.length_drop, List.length_append, List.length_cons] at hlength
        rw [size]
        omega
      have hnext : (bytes text).drop (i + 1) = bs ++ post := by
        rw [← List.drop_drop, hdrop]
        rfl
      rw [iterate_next (hstep i b (bs ++ post) hdrop hb) (by rw [hleft, hleft]; omega),
        ih post (i + 1) hbs hnext, List.length_cons, Nat.add_right_comm, Nat.add_assoc]
  obtain ⟨b, bs, hbytes, hbs⟩ := bytesOf_eq_cons c
  have hlength := length_bytesOf c
  rw [hbytes, List.length_cons] at hlength
  have hdrop : (bytes text).drop (size front + 1) = bs ++ bytes rest := by
    rw [h, bytes_append, bytes_cons, hbytes, size, ← List.drop_drop, List.drop_left]
    rfl
  rw [hskip bs (bytes rest) _ hbs hdrop, size_append, size_cons, size_nil]
  exact congrArg (fun i => iterate left step (state i)) (by omega)

/-- A loop that goes unit by unit ends behind the longest run of units. -/
theorem iterate_extent {unit : List Char → Nat} {step : Nat → Option (Step Nat α)}
    {left : Nat → Nat} {result : List Char → List Char → α} {front rest : List Char}
    (hdone : ∀ front rest, text = front ++ rest → rest = [] ∨ unit rest = 0 →
      step (size front) = some (.done (result front rest)))
    (hnext : ∀ front rest, text = front ++ rest → rest ≠ [] → 0 < unit rest →
      iterate left step (size front) =
        iterate left step (size (front ++ rest.take (unit rest))))
    (h : text = front ++ rest) :
    iterate left step (size front) =
      some (result (front ++ rest.take (extent unit rest)) (rest.drop (extent unit rest))) := by
  by_cases hstop : rest = [] ∨ unit rest = 0
  · have hzero : extent unit rest = 0 := by
      rcases hstop with rfl | hzero
      · exact extent_nil unit
      · exact extent_of_eq_zero hzero
    rw [iterate_done (hdone front rest h hstop), hzero, List.take_zero, List.append_nil,
      List.drop_zero]
  · obtain ⟨hne, hunit⟩ := not_or.mp hstop
    have hpos := Nat.pos_of_ne_zero hunit
    have hlt := length_drop_lt hne hpos
    have hbehind : text = (front ++ rest.take (unit rest)) ++ rest.drop (unit rest) := by
      rw [List.append_assoc, List.take_append_drop, h]
    rw [hnext front rest h hne hpos, iterate_extent hdone hnext hbehind, extent_of_pos hne hpos,
      List.take_add, List.drop_drop, List.append_assoc]
termination_by rest.length

theorem isPrefixOf_eq_false {pattern : List Char} (h : ∀ behind, text ≠ pattern ++ behind) :
    pattern.isPrefixOf text = false := by
  rw [Bool.eq_false_iff, ne_eq, List.isPrefixOf_iff_prefix]
  rintro ⟨behind, heq⟩
  exact h behind heq.symm

/-- What a round sees of the text behind an index. -/
theorem bytesFrom?_eq (h : text = front ++ rest) :
    bytesFrom? (bytes text) (size front) = some (bytes rest) := by
  rw [h, bytesFrom?_append]

theorem left_lt {n : Nat} (h : text = front ++ rest) (hne : rest ≠ []) (hn : 0 < n) :
    size text - (size front + n) < size text - size front := by
  have hpos := size_pos hne
  rw [h, size_append]
  omega

/-- A round that takes a piece of the text at once. -/
theorem iterate_piece (state : Nat → σ) (hleft : ∀ i, left (state i) = size text - i) {s : σ}
    {n : Nat} (hs : left s = size text - size front) (h : text = front ++ rest) (hne : rest ≠ [])
    (hn : 0 < n)
    (hstep : step s = some (.next (state (size front + size (rest.take n))))) :
    iterate left step s = iterate left step (state (size (front ++ rest.take n))) := by
  have htake : rest.take n ≠ [] := by
    rw [ne_eq, List.take_eq_nil_iff, not_or]
    exact ⟨Nat.ne_of_gt hn, hne⟩
  have hlt := left_lt h hne (size_pos htake)
  rw [iterate_next hstep (by rw [hleft, hs]; exact hlt), size_append]

theorem any_head?_bytes {p : Char → Bool} (hp : ∀ c, p c = true → isAscii c = true)
    (text : List Char) : (bytes text).head?.any p = text.head?.any p := by
  cases text with
  | nil => rfl
  | cons c text =>
    cases hc : isAscii c with
    | true =>
      rw [bytes_cons_of_isAscii hc]
      rfl
    | false =>
      obtain ⟨b, bs, hbytes, hb⟩ := exists_bytes_cons hc text
      rw [hbytes]
      exact (eq_false_of_isAscii hp hb).trans (eq_false_of_isAscii hp hc).symm

/-! ## White space and comments -/

/-- A round of `trivia`. -/
def triviaStep (text : List Char) (i : Nat) : Option (Step Nat (Except Nat Nat)) := do
  let here ← bytesFrom? (bytes text) i
  if here.head?.any isLayout then return .next (i + 1)
  else if opensBlock here then
    match find? closing (← from? text (i + 2)) with
    | some n => return .next (i + (n + 4))
    | none => return .done (.error i)
  else if opensLine here then return .next (i + lineLength here)
  else return .done (.ok i)

/-- The bytes of the white space and the comments in front of a text, or those in front of a block
comment that is never closed. -/
def trivia (text : List Char) : Option (Except Nat Nat) :=
  iterate (size text - ·) (triviaStep text) 0

/-- What is behind the white space and the comments. -/
def triviaEnd (front rest : List Char) : Except Nat Nat :=
  if opensBlock rest then .error (size front) else .ok (size front)

theorem triviaStep_eq (h : text = front ++ rest) :
    triviaStep text (size front) =
      if rest.head?.any isLayout then some (.next (size front + 1))
      else if opensBlock rest then
        (from? text (size front + 2)).map fun inside =>
          match find? closing inside with
          | some n => .next (size front + (n + 4))
          | none => .done (.error (size front))
      else if opensLine rest then
        some (.next (size front + size (rest.take (lineLength rest))))
      else some (.done (.ok (size front))) := by
  rw [triviaStep, bytesFrom?_eq h, Option.bind_eq_bind, Option.bind_some,
    any_head?_bytes (fun _ => isAscii_of_isLayout), opensBlock_bytes, opensLine_bytes,
    lineLength_bytes]
  split
  · rfl
  split
  · cases from? text (size front + 2) with
    | none => rfl
    | some inside =>
      rw [Option.map_some, Option.bind_some]
      cases find? closing inside with
      | none => rfl
      | some n => rfl
  split
  · rfl
  · rfl

theorem triviaStep_done (h : text = front ++ rest) (hstop : rest = [] ∨ layoutUnit rest = 0) :
    triviaStep text (size front) = some (.done (triviaEnd front rest)) := by
  rw [triviaStep_eq h, triviaEnd]
  cases rest with
  | nil => rfl
  | cons c rest =>
    have hzero := hstop.resolve_left (List.cons_ne_nil c rest)
    obtain ⟨hlayout, hclosed⟩ := OnePass.isLayout_of_layoutUnit hzero
    rw [List.head?_cons, Option.any_some, hlayout, if_neg Bool.false_ne_true]
    split
    · next hblock =>
      have hopen := OnePass.unclosed_of_layoutUnit hblock hzero
      obtain ⟨inside, heq⟩ := eq_of_opensBlock hblock
      have hfind := find?_block inside
      rw [← heq, hopen, Option.map_none, Option.map_eq_none_iff] at hfind
      rw [h, heq, from?_block, Option.map_some, hfind]
    · next hblock =>
      have hline : opensLine (c :: rest) = false := by
        rw [Bool.eq_false_iff]
        intro hline
        rw [closedComment, if_neg hblock, if_pos hline] at hclosed
        exact absurd hclosed (Nat.ne_of_gt (lineLength_pos hline))
      rw [hline]
      rfl

theorem triviaStep_next (h : text = front ++ rest) (hne : rest ≠ []) (hpos : 0 < layoutUnit rest) :
    triviaStep text (size front) = some (.next (size (front ++ rest.take (layoutUnit rest)))) := by
  obtain ⟨c, rest, rfl⟩ := List.exists_cons_of_ne_nil hne
  rw [triviaStep_eq h, List.head?_cons, Option.any_some, size_append]
  rw [layoutUnit, List.head?_cons] at hpos ⊢
  dsimp only at hpos ⊢
  split
  · next hlayout =>
    have hsize := utf8Size_of_isAscii (isAscii_of_isLayout hlayout)
    rw [List.take_succ_cons, List.take_zero, size_cons, size_nil, hsize]
  · next hlayout =>
    rw [if_neg hlayout] at hpos
    rw [closedComment] at hpos ⊢
    split
    · next hblock =>
      rw [if_pos hblock] at hpos
      obtain ⟨inside, heq⟩ := eq_of_opensBlock hblock
      have hfind := find?_block inside
      rw [← heq] at hfind
      rw [h, heq, from?_block, Option.map_some, ← heq]
      cases hclosed : blockComment? (c :: rest) with
      | none =>
        rw [hclosed] at hpos
        cases hpos
      | some n =>
        rw [hclosed] at hfind
        obtain ⟨k, hk, hsize⟩ := Option.map_eq_some_iff.mp hfind
        dsimp only at hsize
        rw [hk, Option.getD_some, ← hsize]
    · next hblock =>
      rw [if_neg hblock] at hpos
      split
      · rfl
      · next hline =>
        rw [if_neg hline] at hpos
        cases hpos

theorem trivia_eq (text : List Char) :
    trivia text = some (triviaEnd (text.take (extent layoutUnit text))
      (text.drop (extent layoutUnit text))) := by
  refine iterate_extent (fun front rest => triviaStep_done) (fun front rest h hne hpos => ?_)
    (List.nil_append text).symm
  have hstep := triviaStep_next h hne hpos
  rw [size_append] at hstep
  exact iterate_piece id (fun _ => rfl) rfl h hne hpos hstep

/-! ## In the middle of a character -/

theorem comment?_middle {b : Char} (hb : isAscii b = false) (text : List Char) (i : Nat)
    (post : List Char) : comment? text i (b :: post) = some 0 := by
  have hne : b ≠ '/' := by
    rintro rfl
    cases hb
  obtain ⟨hblock, hline⟩ := opens_of_ne hne post
  rw [comment?, hblock, hline]
  rfl

theorem bytesFrom?_middle {i : Nat} {here : List Char} (h : (bytes text).drop i = here)
    (hne : here ≠ []) : i < size text ∧ bytesFrom? (bytes text) i = some here := by
  have hlt : i < size text := by
    by_contra hge
    exact hne (h ▸ List.drop_eq_nil_iff.mpr (Nat.not_lt.mp hge))
  refine ⟨hlt, ?_⟩
  rw [bytesFrom?, if_pos (by rw [size] at hlt; exact Nat.le_of_lt hlt), h]

/-! ## Directive lines -/

/-- A round of `lineEnd`. -/
def lineEndStep (text : List Char) (i : Nat) : Option (Step Nat Nat) :=
  if i < size text then do
    let here ← bytesFrom? (bytes text) i
    if ['\n'].isPrefixOf here then return .done i
    else if ['\\', '\n'].isPrefixOf here then return .next (i + 2)
    else if ['\\', '\r', '\n'].isPrefixOf here then return .next (i + 3)
    else return .next (i + max 1 (← comment? text i here))
  else return .done (size text)

/-- The bytes of the directive line at the head of a text. -/
def lineEnd (text : List Char) : Option Nat := iterate (size text - ·) (lineEndStep text) 0

theorem lineEndStep_eq (h : text = front ++ rest) (hne : rest ≠ []) :
    lineEndStep text (size front) =
      if ['\n'].isPrefixOf rest then some (.done (size front))
      else if ['\\', '\n'].isPrefixOf rest then some (.next (size front + 2))
      else if ['\\', '\r', '\n'].isPrefixOf rest then some (.next (size front + 3))
      else some (.next (size front + max 1 (size (rest.take (commentLength rest))))) := by
  have hpos := size_pos hne
  have hlt : size front < size text := by
    rw [h, size_append]
    omega
  have hcomment : comment? text (size front) (bytes rest) =
      some (size (rest.take (commentLength rest))) := h ▸ comment?_eq front rest
  rw [lineEndStep, if_pos hlt, bytesFrom?_eq h, Option.bind_eq_bind, Option.bind_some,
    isPrefixOf_bytes rfl, isPrefixOf_bytes rfl, isPrefixOf_bytes rfl, hcomment]
  rfl

theorem lineEndStep_middle {i : Nat} {b : Char} {post : List Char}
    (h : (bytes text).drop i = b :: post) (hb : isAscii b = false) :
    lineEndStep text i = some (.next (i + 1)) := by
  obtain ⟨hlt, hfrom⟩ := bytesFrom?_middle h (List.cons_ne_nil b post)
  rw [lineEndStep, if_pos hlt, hfrom, Option.bind_eq_bind, Option.bind_some,
    isPrefixOf_middle rfl hb, isPrefixOf_middle rfl hb, isPrefixOf_middle rfl hb,
    comment?_middle hb]
  rfl

theorem lineEndStep_done (h : text = front ++ rest) (hstop : rest = [] ∨ lineUnit rest = 0) :
    lineEndStep text (size front) = some (.done (size front)) := by
  have hend : rest = [] ∨ ∃ behind, rest = '\n' :: behind := by
    rcases hstop with hnil | hzero
    · exact .inl hnil
    · exact OnePass.eq_of_lineUnit_eq_zero hzero
  rcases hend with rfl | ⟨behind, rfl⟩
  · rw [List.append_nil] at h
    rw [lineEndStep, h, if_neg (Nat.lt_irrefl _)]
    rfl
  · rw [lineEndStep_eq h (List.cons_ne_nil _ _)]
    rfl

/-- The loop comes to the end of the next unit of a line.  Where a round takes the first byte of a
character only, other rounds skip the rest of it. -/
theorem lineEnd_next (h : text = front ++ rest) (hne : rest ≠ []) (hpos : 0 < lineUnit rest) :
    iterate (size text - ·) (lineEndStep text) (size front) =
      iterate (size text - ·) (lineEndStep text) (size (front ++ rest.take (lineUnit rest))) := by
  have hstep := lineEndStep_eq h hne
  have hpiece : ∀ n, 0 < n →
      lineEndStep text (size front) = some (.next (size front + size (rest.take n))) →
      iterate (size text - ·) (lineEndStep text) (size front) =
        iterate (size text - ·) (lineEndStep text) (size (front ++ rest.take n)) :=
    fun n hn => iterate_piece id (fun _ => rfl) rfl h hne hn
  fun_cases lineUnit rest with
  | case1 => exact absurd rfl hne
  | case2 rest => cases hpos
  | case3 rest => exact hpiece 2 Nat.two_pos hstep
  | case4 rest => exact hpiece 3 (Nat.succ_pos 2) hstep
  | case5 rest hnil hfeed hescape hreturn =>
    obtain ⟨c, rest, rfl⟩ := List.exists_cons_of_ne_nil hne
    rw [isPrefixOf_eq_false hfeed, isPrefixOf_eq_false hescape,
      isPrefixOf_eq_false hreturn] at hstep
    simp only [Bool.false_eq_true, if_false] at hstep
    rcases Nat.eq_zero_or_pos (commentLength (c :: rest)) with hzero | hcomment
    · rw [hzero] at hstep ⊢
      rw [iterate_next hstep (left_lt h hne Nat.one_pos)]
      exact iterate_character id (fun _ _ _ => lineEndStep_middle) (fun _ => rfl) h
    · have htake : (c :: rest).take (commentLength (c :: rest)) ≠ [] := by
        rw [ne_eq, List.take_eq_nil_iff, not_or]
        exact ⟨Nat.ne_of_gt hcomment, hne⟩
      rw [Nat.max_eq_right (size_pos htake)] at hstep
      rw [Nat.max_eq_right hcomment]
      exact hpiece _ hcomment hstep

theorem lineEnd_eq (text : List Char) :
    lineEnd text = some (size (text.take (extent lineUnit text))) :=
  iterate_extent (fun _ _ => lineEndStep_done) (fun _ _ => lineEnd_next) (List.nil_append text).symm

/-! ## Source text -/

/-- A round of `directiveStart`.  The flag says that only blanks and comments stand between the
index and the beginning of its line. -/
def directiveStartStep (text : List Char) : Bool × Nat → Option (Step (Bool × Nat) Nat)
  | (fresh, i) =>
    if i < size text then do
      let here ← bytesFrom? (bytes text) i
      if ['\n'].isPrefixOf here then return .next (true, i + 1)
      else if here.head?.any isBlank then return .next (fresh, i + 1)
      else
        let n ← comment? text i here
        if 0 < n then return .next (fresh, i + n)
        else if fresh && ['#'].isPrefixOf here then return .done i
        else return .next (false, i + 1)
    else return .done (size text)

/-- The bytes in front of the next directive line. -/
def directiveStart (text : List Char) : Option Nat :=
  iterate (fun s => size text - s.2) (directiveStartStep text) (false, 0)

theorem isAscii_of_isBlank (h : isBlank c = true) : isAscii c = true :=
  isAscii_of_isLayout (by rw [isLayout, h, Bool.true_or])

theorem isPrefixOf_singleton (p c : Char) (rest : List Char) :
    [p].isPrefixOf (c :: rest) = (c == p) := by
  rw [List.isPrefixOf_cons_cons, BEq.comm]
  exact Bool.and_true (c == p)

theorem directiveStartStep_cons (h : text = front ++ c :: rest) (fresh : Bool) :
    directiveStartStep text (fresh, size front) =
      if c = '\n' then some (.next (true, size front + 1))
      else if isBlank c then some (.next (fresh, size front + 1))
      else if 0 < commentLength (c :: rest) then
        some (.next (fresh, size front + size ((c :: rest).take (commentLength (c :: rest)))))
      else if fresh && c = '#' then some (.done (size front))
      else some (.next (false, size front + 1)) := by
  have hpos := size_pos (List.cons_ne_nil c rest)
  have hlt : size front < size text := by
    rw [h, size_append]
    omega
  have hcomment : comment? text (size front) (bytes (c :: rest)) =
      some (size ((c :: rest).take (commentLength (c :: rest)))) := h ▸ comment?_eq front _
  have hiff : 0 < size ((c :: rest).take (commentLength (c :: rest))) ↔
      0 < commentLength (c :: rest) := by
    cases commentLength (c :: rest) with
    | zero => exact Iff.rfl
    | succ k => exact iff_of_true (size_pos (List.cons_ne_nil c _)) (Nat.succ_pos k)
  rw [directiveStartStep, if_pos hlt, bytesFrom?_eq h, Option.bind_eq_bind, Option.bind_some,
    isPrefixOf_bytes rfl, any_head?_bytes (fun _ => isAscii_of_isBlank), isPrefixOf_bytes rfl,
    hcomment, Option.bind_eq_bind, Option.bind_some, isPrefixOf_singleton, isPrefixOf_singleton]
  simp only [hiff, beq_iff_eq]
  rfl

theorem directiveStartStep_middle {i : Nat} {b : Char} {post : List Char}
    (h : (bytes text).drop i = b :: post) (hb : isAscii b = false) :
    directiveStartStep text (false, i) = some (.next (false, i + 1)) := by
  obtain ⟨hlt, hfrom⟩ := bytesFrom?_middle h (List.cons_ne_nil b post)
  have hblank : isBlank b = false := eq_false_of_isAscii (fun _ => isAscii_of_isBlank) hb
  rw [directiveStartStep, if_pos hlt, hfrom, Option.bind_eq_bind, Option.bind_some,
    isPrefixOf_middle rfl hb, List.head?_cons, Option.any_some, hblank, comment?_middle hb]
  rfl

theorem take_sub {n k m : Nat} (h : n + k ≤ m) (rest : List Char) :
    rest.take (m - n) = rest.take k ++ (rest.drop k).take (m - (n + k)) := by
  rw [← List.take_add]
  exact congrArg (rest.take ·) (by omega)

/-- The loop ends where the source text does.  Behind a character the flag is down, so the bytes
that are left of it are skipped whatever they are. -/
theorem directiveStart_from (fresh : Bool) (n : Nat) (h : text = front ++ rest) :
    iterate (fun s => size text - s.2) (directiveStartStep text) (fresh, size front) =
      some (size (front ++ rest.take (sourceFrom fresh n rest - n))) := by
  fun_induction sourceFrom fresh n rest generalizing front with
  | case1 fresh n =>
    rw [List.append_nil] at h
    rw [List.take_nil, List.append_nil, h]
    refine iterate_done ?_
    rw [directiveStartStep, if_neg (Nat.lt_irrefl _)]
    rfl
  | case2 fresh n rest ih =>
    have hstep := directiveStartStep_cons h fresh
    rw [if_pos rfl] at hstep
    rw [iterate_piece (true, ·) (fun _ => rfl) rfl h (List.cons_ne_nil _ _) Nat.one_pos hstep,
      take_sub (sourceFrom_ge ..), ← List.append_assoc]
    exact ih (by rw [h, List.append_assoc]; rfl)
  | case3 fresh n c rest hfeed hblank ih =>
    have hsize : size ((c :: rest).take 1) = 1 := by
      rw [List.take_succ_cons, List.take_zero, size_cons, size_nil,
        utf8Size_of_isAscii (isAscii_of_isBlank hblank)]
    have hstep := directiveStartStep_cons h fresh
    rw [if_neg hfeed, if_pos hblank, ← hsize] at hstep
    rw [iterate_piece (fresh, ·) (fun _ => rfl) rfl h (List.cons_ne_nil _ _) Nat.one_pos hstep,
      take_sub (sourceFrom_ge ..), ← List.append_assoc]
    exact ih (by rw [h, List.append_assoc]; rfl)
  | case4 fresh n c rest hfeed hblank k hlength ih =>
    have hstep := directiveStartStep_cons h fresh
    rw [if_neg hfeed, if_neg hblank, hlength, if_pos (Nat.succ_pos k)] at hstep
    rw [iterate_piece (fresh, ·) (fun _ => rfl) rfl h (List.cons_ne_nil _ _) (Nat.succ_pos k) hstep,
      take_sub (sourceFrom_ge ..), ← List.append_assoc]
    refine ih ?_
    rw [h, List.append_assoc]
    exact congrArg (front ++ ·) (List.take_append_drop (k + 1) (c :: rest)).symm
  | case5 fresh n c rest hfeed hblank hlength hhash =>
    have hstep := directiveStartStep_cons h fresh
    rw [if_neg hfeed, if_neg hblank, hlength, if_neg (Nat.lt_irrefl 0), if_pos hhash] at hstep
    rw [Nat.sub_self, List.take_zero, List.append_nil]
    exact iterate_done hstep
  | case6 fresh n c rest hfeed hblank hlength hhash ih =>
    have hstep := directiveStartStep_cons h fresh
    rw [if_neg hfeed, if_neg hblank, hlength, if_neg (Nat.lt_irrefl 0), if_neg hhash] at hstep
    rw [iterate_next hstep (left_lt h (List.cons_ne_nil _ _) Nat.one_pos),
      iterate_character (false, ·) (fun _ _ _ => directiveStartStep_middle) (fun _ => rfl) h,
      take_sub (sourceFrom_ge ..), ← List.append_assoc]
    exact ih (by rw [h, List.append_assoc]; rfl)

theorem directiveStart_eq (text : List Char) :
    directiveStart text = some (size (text.take (sourceLength text))) :=
  directiveStart_from false 0 (List.nil_append text).symm

end EngineHeader.Checked
