import EngineHeader.Directive.Tree
import EngineHeader.Proofs.Checked.Scan
import EngineHeader.Proofs.Directive.Faults

/-!
# Directive lines by slices

A directive line is cut into its parts by slices, and each slice is checked (`line?`).  The argument
is a slice with its delimiters.  Only when the line asks for a file is the name cut out of them
(`inside?`), by its first and its last byte.  This is good because an argument that begins with a
delimiter also ends with one, which was made sure when the line was cut.

The parts are those of the line (`line?_eq`), and so is what the line asks for (`instruction?_eq`).
-/

namespace EngineHeader.Checked

open Text Directive

variable {c : Char} {text front rest : List Char}

/-! ## Spacing -/

/-- The bytes of one unit of spacing at the head of a line. -/
def spacing? (text : List Char) : Option Nat :=
  let here := bytes text
  if here.head?.any isBlank then some 1
  else if ['\\', '\n'].isPrefixOf here then some 2
  else if ['\\', '\r', '\n'].isPrefixOf here then some 3
  else if opensLine here then some here.length
  else comment? text 0 here

/-- A round of `space`. -/
def spaceStep (text : List Char) : Option (Step (List Char) (List Char)) := do
  let n ← spacing? text
  if 0 < n then return .next (← from? text n) else return .done text

/-- A line without the spacing in front of it. -/
def space (text : List Char) : Option (List Char) := iterate size spaceStep text

theorem spacing?_eq (text : List Char) :
    spacing? text = some (size (text.take (spacingUnit text))) := by
  rw [spacing?, any_head?_bytes (fun _ => isAscii_of_isBlank), isPrefixOf_bytes rfl,
    isPrefixOf_bytes rfl, opensLine_bytes]
  have hcomment : comment? text 0 (bytes text) = some (size (text.take (commentLength text))) :=
    comment?_eq [] text
  rw [hcomment]
  fun_cases spacingUnit text with
  | case1 rest => rfl
  | case2 rest => rfl
  | case3 => rfl
  | case4 c rest hescape hreturn hblank =>
    rw [List.head?_cons, Option.any_some, if_pos hblank, List.take_succ_cons, List.take_zero,
      size_cons, size_nil, utf8Size_of_isAscii (isAscii_of_isBlank hblank)]
  | case5 c rest hescape hreturn hblank hline =>
    have hescape : ['\\', '\n'].isPrefixOf (c :: rest) = false :=
      isPrefixOf_eq_false fun tail h => hescape tail (List.cons.inj h).1 (List.cons.inj h).2
    have hreturn : ['\\', '\r', '\n'].isPrefixOf (c :: rest) = false :=
      isPrefixOf_eq_false fun tail h => hreturn tail (List.cons.inj h).1 (List.cons.inj h).2
    rw [List.head?_cons, Option.any_some, if_neg hblank, hescape, hreturn, if_pos hline,
      if_neg Bool.false_ne_true, if_neg Bool.false_ne_true, ← List.length_cons, List.take_length]
    rfl
  | case6 c rest hescape hreturn hblank hline =>
    have hescape : ['\\', '\n'].isPrefixOf (c :: rest) = false :=
      isPrefixOf_eq_false fun tail h => hescape tail (List.cons.inj h).1 (List.cons.inj h).2
    have hreturn : ['\\', '\r', '\n'].isPrefixOf (c :: rest) = false :=
      isPrefixOf_eq_false fun tail h => hreturn tail (List.cons.inj h).1 (List.cons.inj h).2
    rw [List.head?_cons, Option.any_some, if_neg hblank, hescape, hreturn, if_neg hline,
      if_neg Bool.false_ne_true, if_neg Bool.false_ne_true]

theorem space_eq (text : List Char) : space text = some (skipSpacing text) := by
  have hspacing := spacing?_eq text
  rw [skipSpacing, dropUnits]
  by_cases hstop : text = [] ∨ spacingUnit text = 0
  · have hsize : size (text.take (spacingUnit text)) = 0 := by
      rcases hstop with rfl | hzero
      · rfl
      · rw [hzero]
        rfl
    have hextent : extent spacingUnit text = 0 := by
      rcases hstop with rfl | hzero
      · exact extent_nil spacingUnit
      · exact extent_of_eq_zero hzero
    rw [hextent]
    refine iterate_done ?_
    rw [spaceStep, hspacing, hsize]
    rfl
  · obtain ⟨hne, hunit⟩ := not_or.mp hstop
    have hpos := Nat.pos_of_ne_zero hunit
    have hlt := length_drop_lt hne hpos
    have hsize : 0 < size (text.take (spacingUnit text)) := by
      refine size_pos ?_
      rw [ne_eq, List.take_eq_nil_iff, not_or]
      exact ⟨hunit, hne⟩
    have hstep : spaceStep text = some (.next (text.drop (spacingUnit text))) := by
      rw [spaceStep, hspacing, Option.bind_eq_bind, Option.bind_some, if_pos hsize, from?_size_take]
      rfl
    have hless : size (text.drop (spacingUnit text)) < size text := by
      have hsum := size_take_add_drop (spacingUnit text) text
      omega
    rw [space, iterate_next hstep hless, extent_of_pos hne hpos, ← List.drop_drop]
    exact space_eq (text.drop (spacingUnit text))
termination_by text.length

/-! ## Arguments -/

/-- The bytes of the argument at the head of a line, with its delimiters, or none. -/
def argumentLength? (text : List Char) : Option Nat :=
  let here := bytes text
  if here.head?.any isWordPart then some (here.takeWhile isWordPart).length
  else if ['<'].isPrefixOf here then some (((find? ['>'] text).map (· + 1)).getD 0)
  else if ['"'].isPrefixOf here then
    (from? text 1).map fun inside => ((find? ['"'] inside).map (· + 2)).getD 0
  else some 0

theorem isAscii_of_isWordPart (h : isWordPart c = true) : isAscii c = true := by
  have hpart : (((decide (c.val ≥ 'A'.val ∧ c.val ≤ 'Z'.val) ||
      decide (c.val ≥ 'a'.val) && decide (c.val ≤ 'z'.val)) ||
        decide (c.val ≥ '0'.val) && decide (c.val ≤ '9'.val)) || c == '_') = true := h
  have hnine : '9'.val.toNat = 57 := rfl
  have hupper : 'Z'.val.toNat = 90 := rfl
  have hlower : 'z'.val.toNat = 122 := rfl
  simp only [Bool.or_eq_true, Bool.and_eq_true, decide_eq_true_eq, beq_iff_eq, ge_iff_le,
    UInt32.le_iff_toNat_le] at hpart
  refine decide_eq_true ?_
  change c.val.toNat < 128
  rcases hpart with ((⟨_, hle⟩ | ⟨_, hle⟩) | ⟨_, hle⟩) | rfl
  · omega
  · omega
  · omega
  · decide

theorem length_takeWhile_word (text : List Char) :
    ((bytes text).takeWhile isWordPart).length = size (text.takeWhile isWordPart) :=
  congrArg List.length (takeWhile_bytes (uniform_of_isAscii fun _ => isAscii_of_isWordPart) text)

theorem splitAt?_cons (close c : Char) (text : List Char) :
    splitAt? close (c :: text) =
      if c = close then some ([], text)
      else (splitAt? close text).map fun (front, rest) => (c :: front, rest) := by
  by_cases hc : c = close
  · simp [splitAt?, hc]
  · simp only [splitAt?, List.dropWhile_cons, List.takeWhile_cons, bne_iff_ne, ne_eq, hc,
      not_false_eq_true, if_true, if_false]
    split
    · rfl
    · rfl

theorem eq_of_splitAt? {close : Char} (h : splitAt? close text = some (front, rest)) :
    text = front ++ close :: rest := by
  induction text generalizing front with
  | nil => cases h
  | cons c text ih =>
    rw [splitAt?_cons] at h
    split at h
    · next hc =>
      cases h
      rw [hc, List.nil_append]
    · obtain ⟨⟨front, rest⟩, hsplit, heq⟩ := Option.map_eq_some_iff.mp h
      cases heq
      rw [ih hsplit, List.cons_append]

/-- The offset of a character. -/
theorem find?_singleton (close : Char) (text : List Char) :
    find? [close] text = (splitAt? close text).map fun (front, _) => size front := by
  induction text with
  | nil => rfl
  | cons c text ih =>
    rw [find?_cons, isPrefixOf_singleton, splitAt?_cons, ih]
    by_cases hc : c = close
    · rw [if_pos hc, if_pos (beq_iff_eq.mpr hc)]
      rfl
    · rw [if_neg hc, if_neg (mt beq_iff_eq.mp hc), Option.map_map, Option.map_map]
      exact congrArg (Option.map · _) (funext fun (front, _) => (size_cons c front).symm)

theorem argumentLength?_angled (inside : List Char) :
    argumentLength? ('<' :: inside) =
      some (((splitAt? '>' inside).map fun (name, _) => size ('<' :: name ++ ['>'])).getD 0) := by
  have hfind : argumentLength? ('<' :: inside) =
      some (((find? ['>'] ('<' :: inside)).map (· + 1)).getD 0) := by
    rw [argumentLength?, any_head?_bytes (fun _ => isAscii_of_isWordPart), isPrefixOf_bytes rfl]
    rfl
  rw [hfind, find?_singleton, splitAt?_cons, if_neg (by decide), Option.map_map, Option.map_map]
  refine congrArg (fun n => some (Option.getD n 0)) (congrArg (Option.map · _) (funext fun _ => ?_))
  exact (size_append _ ['>']).symm

theorem argumentLength?_quoted (inside : List Char) :
    argumentLength? ('"' :: inside) =
      some (((splitAt? '"' inside).map fun (name, _) => size ('"' :: name ++ ['"'])).getD 0) := by
  have hfind : argumentLength? ('"' :: inside) =
      some (((find? ['"'] inside).map (· + 2)).getD 0) := by
    have hfrom : from? ('"' :: inside) 1 = some inside := from?_append ['"'] inside
    rw [argumentLength?, any_head?_bytes (fun _ => isAscii_of_isWordPart), isPrefixOf_bytes rfl,
      isPrefixOf_bytes rfl, hfrom]
    rfl
  have hsize : ∀ name, size name + 2 = size ('"' :: name ++ ['"']) := by
    intro name
    have hquote : '"'.utf8Size = 1 := rfl
    rw [size_append, size_cons, size_cons, size_nil, hquote]
    omega
  rw [hfind, find?_singleton, Option.map_map]
  exact congrArg (fun n => some (Option.getD n 0))
    (congrArg (Option.map · _) (funext fun (name, _) => hsize name))

/-- What is cut out for an argument: nothing, or the argument with its delimiters. -/
theorem argumentLength?_eq (text : List Char) :
    ∃ raw, text = raw ++ (readArgument text).2 ∧ argumentLength? text = some (size raw) ∧
      (readArgument text).1.map (·.text.toList) = if raw = [] then none else some raw := by
  fun_cases readArgument text with
  | case1 => exact ⟨[], rfl, rfl, rfl⟩
  | case2 c inside hword =>
    have htake : (c :: inside).takeWhile isWordPart ≠ [] := by
      rw [List.takeWhile_cons, if_pos hword]
      exact List.cons_ne_nil _ _
    refine ⟨_, List.takeWhile_append_dropWhile.symm, ?_, ?_⟩
    · rw [argumentLength?, any_head?_bytes (fun _ => isAscii_of_isWordPart), length_takeWhile_word]
      exact if_pos hword
    · rw [if_neg htake, Option.map_some, Argument.text, String.toList_ofList]
  | case3 inside name rest hsplit _ =>
    refine ⟨'<' :: name ++ ['>'], ?_, ?_, ?_⟩
    · rw [eq_of_splitAt? hsplit]
      simp
    · rw [argumentLength?_angled, hsplit]
      rfl
    · simp [Argument.text]
  | case4 inside hsplit _ =>
    refine ⟨[], rfl, ?_, rfl⟩
    rw [argumentLength?_angled, hsplit]
    rfl
  | case5 inside name rest hsplit _ =>
    refine ⟨'"' :: name ++ ['"'], ?_, ?_, ?_⟩
    · rw [eq_of_splitAt? hsplit]
      simp
    · rw [argumentLength?_quoted, hsplit]
      rfl
    · simp [Argument.text]
  | case6 inside hsplit _ =>
    refine ⟨[], rfl, ?_, rfl⟩
    rw [argumentLength?_quoted, hsplit]
    rfl
  | case7 c inside hword hangle hquote =>
    refine ⟨[], rfl, ?_, rfl⟩
    rw [argumentLength?, any_head?_bytes (fun _ => isAscii_of_isWordPart), isPrefixOf_bytes rfl,
      isPrefixOf_bytes rfl, isPrefixOf_singleton, isPrefixOf_singleton, List.head?_cons,
      Option.any_some, if_neg hword, if_neg (mt beq_iff_eq.mp hangle),
      if_neg (mt beq_iff_eq.mp hquote)]
    rfl

/-- The argument at the head of a line, with its delimiters, and what follows it. -/
def argument? (text : List Char) : Option (Option (List Char) × List Char) := do
  let n ← argumentLength? text
  let rest ← from? text n
  if 0 < n then return (some (← upTo? text n), rest) else return (none, rest)

theorem argument?_eq (text : List Char) :
    argument? text = some ((readArgument text).1.map (·.text.toList), (readArgument text).2) := by
  obtain ⟨raw, htext, hlength, hargument⟩ := argumentLength?_eq text
  generalize readArgument text = found at htext hargument ⊢
  rw [argument?, hlength, hargument, htext, Option.bind_eq_bind, Option.bind_some, from?_append,
    upTo?_append]
  by_cases hraw : raw = []
  · rw [if_pos hraw, hraw]
    rfl
  · rw [if_neg hraw, Option.bind_eq_bind, Option.bind_some, if_pos (size_pos hraw)]
    rfl

/-! ## Lines -/

/-- A directive line in slices.  The argument has its delimiters. -/
structure RawLine where
  /-- The name of the directive. -/
  name : String
  /-- The argument, if there is one. -/
  argument? : Option String
  /-- What follows. -/
  rest : String
deriving DecidableEq, Repr

/-- A line with its argument as it is spelled. -/
def RawLine.ofLine (l : Line) : RawLine := ⟨l.name, l.argument?.map Argument.text, l.rest⟩

/-- The slices of a directive line, which begins with a number sign. -/
def line? (text : List Char) : Option RawLine := do
  let rest ← space (← from? text 1)
  let (name, rest) ← split? rest ((bytes rest).takeWhile isWordPart).length
  let (argument?, rest) ← argument? (← space rest)
  return ⟨String.ofList name, argument?.map String.ofList,
    String.ofList (trimEnd (← space rest))⟩

theorem split?_takeWhile (text : List Char) :
    split? text ((bytes text).takeWhile isWordPart).length =
      some (text.takeWhile isWordPart, text.dropWhile isWordPart) := by
  rw [length_takeWhile_word, split?_eq_some_iff]
  exact ⟨List.takeWhile_append_dropWhile.symm, rfl⟩

theorem line?_eq (text : List Char) : line? ('#' :: text) = some (.ofLine (Line.ofText text)) := by
  have hfrom : from? ('#' :: text) 1 = some text := from?_append ['#'] text
  have hspell : String.ofList ∘ (fun a : Argument => a.text.toList) = Argument.text :=
    funext fun a => String.ofList_toList
  simp only [line?, hfrom, space_eq, split?_takeWhile, argument?_eq, Option.bind_eq_bind,
    Option.bind_some, Option.map_map, hspell]
  rfl

/-! ## Instructions -/

/-- The text between the first byte and the last. -/
def inside? (text : List Char) : Option (List Char) :=
  if 1 ≤ size text then (upTo? text (size text - 1)).bind (from? · 1) else none

theorem inside?_eq {a b : Char} (ha : isAscii a = true) (hb : isAscii b = true)
    (name : List Char) : inside? (a :: name ++ [b]) = some name := by
  have hsize : size (a :: name ++ [b]) = size (a :: name) + 1 := by
    rw [size_append, size_cons b, size_nil, utf8Size_of_isAscii hb]
  have hfrom := from?_append [a] name
  rw [size_cons, size_nil, utf8Size_of_isAscii ha] at hfrom
  rw [inside?, hsize, if_pos (Nat.le_add_left 1 _), Nat.add_sub_cancel, upTo?_append]
  exact hfrom

namespace RawLine

/-- The name that a directive needs. -/
def nameFor (k : Keyword) (l : RawLine) : Except Fault String :=
  match l.argument? with
  | some name =>
    if name.toList.head?.any fun c => c.isDigit || c == '<' || c == '"' then
      .error (.missingArgument k)
    else .ok name
  | none => .error (.missingArgument k)

/-- A value, if nothing follows the argument of the directive. -/
def complete {α : Type} (k : Keyword) (l : RawLine) (a : α) : Except Fault α :=
  if l.rest = "" then .ok a else .error (.trailingText k)

/-- The opening of a block. -/
def opening (condition : Condition) (l : RawLine) : Except Fault Instruction := do
  let name ← l.nameFor condition.keyword
  l.complete condition.keyword (.enter condition name)

/-- Nothing follows the name of the directive. -/
def isBare (l : RawLine) : Bool := l.argument?.isNone && l.rest == ""

/-- What a directive line asks for.  Only the name of a file is cut out of its delimiters. -/
def instruction? (l : RawLine) : Option (Except Fault Instruction) :=
  if l.name = "" then some (if l.isBare then .ok .nothing else .error .missingName)
  else
    match Keyword.ofText? l.name with
    | none => some (.error (.unsupported l.name))
    | some .endif => some (.ok (.leave l.isBare))
    | some .ifDefined => some (l.opening .defined)
    | some .ifUndefined => some (l.opening .undefined)
    | some .define => some do return .leaf (.define (← l.nameFor .define))
    | some .includeFile =>
      match l.argument? with
      | none => some (.error (.missingArgument .includeFile))
      | some argument =>
        if argument.toList.head?.any fun c => c == '<' || c == '"' then do
          let name ← inside? argument.toList
          return l.complete .includeFile
            (.leaf (.includeFile (String.ofList name) (argument.toList.head?.any (· == '<'))))
        else some (.error (.missingArgument .includeFile))

end RawLine

/-- A word that is an argument does not begin with a delimiter. -/
theorem head?_of_word {name : String} (h : (readArgument text).1 = some (.word name)) :
    ∃ c cs, name.toList = c :: cs ∧ c ≠ '<' ∧ c ≠ '"' := by
  obtain ⟨c, cs, hname, hc, -⟩ := exists_of_readArgument h
  refine ⟨c, cs, hname, ?_, ?_⟩
  · rintro rfl
    cases hc
  · rintro rfl
    cases hc

theorem nameFor_eq {l : Line} (k : Keyword)
    (hword : ∀ name, l.argument? = some (.word name) →
      ∃ c cs, name.toList = c :: cs ∧ c ≠ '<' ∧ c ≠ '"') :
    (RawLine.ofLine l).nameFor k = l.nameFor k := by
  obtain ⟨name, argument?, rest⟩ := l
  cases argument? with
  | none => rfl
  | some argument =>
    cases argument with
    | angled name => simp [RawLine.nameFor, Line.nameFor, RawLine.ofLine, Argument.text]
    | quoted name => simp [RawLine.nameFor, Line.nameFor, RawLine.ofLine, Argument.text]
    | word name =>
      obtain ⟨c, cs, hname, hangle, hquote⟩ := hword name rfl
      simp [RawLine.nameFor, Line.nameFor, RawLine.ofLine, Argument.text, hname, hangle, hquote]

theorem isBare_eq (l : Line) : (RawLine.ofLine l).isBare = l.isBare := by
  rw [RawLine.isBare, Line.isBare, RawLine.ofLine, Option.isNone_map]

theorem instruction?_eq (text : List Char) :
    (RawLine.ofLine (Line.ofText text)).instruction? = some (Line.ofText text).instruction := by
  have hword : ∀ name, (Line.ofText text).argument? = some (.word name) →
      ∃ c cs, name.toList = c :: cs ∧ c ≠ '<' ∧ c ≠ '"' := fun name h => head?_of_word h
  generalize Line.ofText text = l at hword
  have hname (k : Keyword) := nameFor_eq k hword
  have hopening (c : Condition) : (RawLine.ofLine l).opening c = l.opening c := by
    rw [RawLine.opening, Line.opening, hname]
    rfl
  rw [RawLine.instruction?, Line.instruction, isBare_eq]
  have hsame : (RawLine.ofLine l).name = l.name := rfl
  rw [hsame]
  split
  · rfl
  cases Keyword.ofText? l.name with
  | none => rfl
  | some k =>
    cases k with
    | endif => rfl
    | ifDefined => exact congrArg some (hopening _)
    | ifUndefined => exact congrArg some (hopening _)
    | define =>
      dsimp only
      rw [hname]
    | includeFile =>
      obtain ⟨name, argument?, rest⟩ := l
      cases argument? with
      | none => rfl
      | some argument =>
        cases argument with
        | angled name =>
          have hinside : inside? ('<' :: (name.toList ++ ['>'])) = some name.toList :=
            inside?_eq rfl rfl name.toList
          simp [RawLine.ofLine, Argument.text, hinside]
          rfl
        | quoted name =>
          have hinside : inside? ('"' :: (name.toList ++ ['"'])) = some name.toList :=
            inside?_eq rfl rfl name.toList
          simp [RawLine.ofLine, Argument.text, hinside]
          rfl
        | word name =>
          obtain ⟨c, cs, hname, hangle, hquote⟩ := hword name rfl
          simp [RawLine.ofLine, Argument.text, hname, hangle, hquote]

end EngineHeader.Checked
