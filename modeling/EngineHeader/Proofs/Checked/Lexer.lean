import EngineHeader.Proofs.Checked.Tree
import EngineHeader.Proofs.Token.Ending
import EngineHeader.Proofs.Token.Exact

/-!
# Tokens by slices

The declaration tokens of a text, told by its bytes.  The lexer looks at the bytes behind a position
and cuts out what it takes and what it does not recognize, and these slices are checked.  Behind the
mark of a number and behind the opening of a block comment it goes on with the bytes from there,
which is checked too.

Most of what is cut out is made of ASCII characters.  The exceptions are comments and a character
that begins no token, which is taken whole.  So a slice ends between two characters, and it is the
one that was measured by characters (`lexeme?_eq`).
-/

namespace EngineHeader.Checked

open Text Token

variable {c : Char} {text : List Char} {n : Nat}

/-! ## Numbers -/

/-- A zero and the mark of a hexadecimal number begin the bytes. -/
def startsHex (here : List Char) : Bool := ['0', 'x'].isPrefixOf here || ['0', 'X'].isPrefixOf here

/-- The bytes of the integer literal that begins here, if there is one, or those of its sign, its
zero and its mark, if no digits follow them. -/
def numeral? (here : List Char) : Option (Option (Except Nat Nat)) :=
  let sign := signLength here
  if startsHex (here.drop sign) then
    (bytesFrom? here (sign + 2)).map fun inside =>
      let digits := (inside.takeWhile isHexDigit).length
      if digits = 0 then some (.error (sign + 2)) else some (.ok (sign + 2 + digits))
  else if (here.drop sign).head?.any Char.isDigit then
    (bytesFrom? here sign).map fun inside =>
      some (.ok (sign + (inside.takeWhile Char.isDigit).length))
  else some none

theorem isAscii_of_isDigit (h : c.isDigit = true) : isAscii c = true := by
  refine isAscii_of_isWordPart ?_
  rw [isWordPart, Char.isAlphanum, h, Bool.or_true, Bool.true_or]

theorem isAscii_of_isHexDigit (h : isHexDigit c = true) : isAscii c = true := by
  have hnine : '9'.val.toNat = 57 := rfl
  have hupper : 'F'.val.toNat = 70 := rfl
  have hlower : 'f'.val.toNat = 102 := rfl
  refine decide_eq_true ?_
  change c.val.toNat < 128
  rw [isHexDigit, hexDigit?] at h
  simp only [Char.le_def, UInt32.le_iff_toNat_le] at h
  split at h
  · omega
  split at h
  · omega
  split at h
  · omega
  · cases h

theorem isAscii_of_isSign (h : isSign c = true) : isAscii c = true := by
  rcases eq_of_isSign h with rfl | rfl
  · rfl
  · rfl

theorem isAscii_of_isHexMark (h : isHexMark c = true) : isAscii c = true := by
  simp only [isHexMark, Bool.or_eq_true, beq_iff_eq] at h
  rcases h with rfl | rfl
  · rfl
  · rfl

theorem isAscii_of_isNumberPart (h : isNumberPart c = true) : isAscii c = true := by
  simp only [isNumberPart, Bool.or_eq_true] at h
  rcases h with ((hsign | hmark) | hhex) | hdigit
  · exact isAscii_of_isSign hsign
  · exact isAscii_of_isHexMark hmark
  · exact isAscii_of_isHexDigit hhex
  · exact isAscii_of_isDigit hdigit

/-- A run of ASCII characters has as many bytes as characters. -/
theorem length_takeWhile_bytes {p : Char → Bool} (hp : ∀ c, p c = true → isAscii c = true)
    (text : List Char) : ((bytes text).takeWhile p).length = (text.takeWhile p).length := by
  rw [takeWhile_bytes (uniform_of_isAscii hp)]
  exact size_eq_length fun c hc => hp c (List.mem_takeWhile_imp hc)

theorem startsHex_bytes (text : List Char) : startsHex (bytes text) = startsHex text := by
  rw [startsHex, isPrefixOf_bytes rfl, isPrefixOf_bytes rfl, startsHex]

theorem eq_of_startsHex (h : startsHex text = true) :
    ∃ mark inside, text = '0' :: mark :: inside ∧ isHexMark mark = true := by
  rw [startsHex, Bool.or_eq_true, List.isPrefixOf_iff_prefix, List.isPrefixOf_iff_prefix] at h
  rcases h with ⟨inside, rfl⟩ | ⟨inside, rfl⟩
  · exact ⟨'x', inside, rfl, rfl⟩
  · exact ⟨'X', inside, rfl, rfl⟩

/-- A number without a mark is decimal. -/
theorem numberLength_of_startsHex (h : startsHex text = false) :
    numberLength text = .ok (text.takeWhile Char.isDigit).length := by
  unfold numberLength
  split
  · next mark inside =>
    split
    · next hmark =>
      simp only [isHexMark, Bool.or_eq_true, beq_iff_eq] at hmark
      rcases hmark with rfl | rfl
      · cases h
      · cases h
    · rfl
  · rfl

theorem numberLength_hex {mark : Char} (hmark : isHexMark mark = true) (inside : List Char) :
    numberLength ('0' :: mark :: inside) =
      if (inside.takeWhile isHexDigit).length = 0 then .error 2
      else .ok (2 + (inside.takeWhile isHexDigit).length) := by
  rw [numberLength, if_pos hmark]

theorem signLength_bytes (text : List Char) : signLength (bytes text) = signLength text := by
  have hhead (text : List Char) : signLength text = if text.head?.any isSign then 1 else 0 := by
    cases text with
    | nil => rfl
    | cons c text => rfl
  rw [hhead, hhead, any_head?_bytes fun _ => isAscii_of_isSign]

theorem numeral?_eq (text : List Char) : numeral? (bytes text) = some (integerLength? text) := by
  obtain ⟨sign, rest, rfl, hsign, -, hdrop⟩ := exists_sign text
  have hascii : ∀ c ∈ sign, isAscii c = true := fun c hc => isAscii_of_isSign (hsign c hc)
  have hbytes : (bytes (sign ++ rest)).drop sign.length = bytes rest := by
    rw [bytes_append, bytes_eq_self hascii, List.drop_left]
  rw [numeral?, signLength_bytes, hdrop, hbytes, startsHex_bytes,
    any_head?_bytes (fun _ => isAscii_of_isDigit)]
  cases hhex : startsHex rest with
  | true =>
    obtain ⟨mark, inside, rfl, hmark⟩ := eq_of_startsHex hhex
    have hfrom := bytesFrom?_append (sign ++ ['0', mark]) inside
    have hsize : size (sign ++ ['0', mark]) = sign.length + 2 := by
      rw [size_append, size_eq_length hascii, size_cons, size_cons, size_nil,
        utf8Size_of_isAscii (isAscii_of_isHexMark hmark)]
      rfl
    rw [hsize, List.append_assoc] at hfrom
    have hhere : bytesFrom? (bytes (sign ++ '0' :: mark :: inside)) (sign.length + 2) =
        some (bytes inside) := hfrom
    rw [if_pos rfl, integerLength?_append hdrop rfl, numberLength_hex hmark, hhere, Option.map_some,
      length_takeWhile_bytes (fun _ => isAscii_of_isHexDigit)]
    by_cases hnone : (inside.takeWhile isHexDigit).length = 0
    · simp only [hnone, if_true]
      rfl
    · simp only [hnone, if_false, Nat.add_assoc]
      rfl
  | false =>
    have hfrom := bytesFrom?_append sign rest
    rw [size_eq_length hascii] at hfrom
    have hdigit : startsWithDigit rest = rest.head?.any Char.isDigit := by
      cases rest with
      | nil => rfl
      | cons c rest => rfl
    rw [if_neg Bool.false_ne_true, ← hdigit]
    cases hd : startsWithDigit rest with
    | true =>
      rw [if_pos rfl, hfrom, integerLength?_append hdrop hd, numberLength_of_startsHex hhex,
        Option.map_some, length_takeWhile_bytes (fun _ => isAscii_of_isDigit)]
      rfl
    | false =>
      rw [if_neg Bool.false_ne_true, integerLength?, hdrop, List.drop_left, hd]
      rfl

theorem size_integer (h : integerLength? text = some (.ok n)) : size (text.take n) = n := by
  have hascii : ∀ c ∈ text.take n, isAscii c = true :=
    fun c hc => isAscii_of_isNumberPart (isNumberPart_of_integer h c hc)
  obtain ⟨lexeme, behind, rfl, rfl, -⟩ := isLexeme_of_integerLength? h
  rw [size_eq_length hascii, List.take_left]

theorem size_integer_error (h : integerLength? text = some (.error n)) :
    size (text.take n) = n := by
  obtain ⟨sign, rest, rfl, hsign, -, hdrop⟩ := exists_sign text
  rw [integerLength?, hdrop, List.drop_left] at h
  split at h
  · cases hhex : startsHex rest with
    | false =>
      rw [numberLength_of_startsHex hhex] at h
      cases h
    | true =>
      obtain ⟨mark, inside, rfl, hmark⟩ := eq_of_startsHex hhex
      rw [numberLength_hex hmark] at h
      split at h
      · cases h
        rw [List.take_length_add_append, size_append,
          size_eq_length fun c hc => isAscii_of_isSign (hsign c hc), List.take_succ_cons,
          List.take_succ_cons, List.take_zero, size_cons, size_cons, size_nil,
          utf8Size_of_isAscii (isAscii_of_isHexMark hmark)]
        rfl
      · cases h
  · cases h

/-! ## Tokens -/

/-- The kind and the bytes of the token at the head of a text, or the bytes of what was not
recognized. -/
def lexeme? (text : List Char) : Option (Except Nat (Token.Kind × Nat)) :=
  let here := bytes text
  if here = [] then some (.ok (.endOfFile, 0))
  else if opensLine here then some (.ok (.comment, lineLength here))
  else if opensBlock here then
    (bytesFrom? here 2).map fun inside =>
      match position? closing inside with
      | some n => .ok (.comment, n + 4)
      | none => .error 2
  else if here.head?.any isWordStart then
    let n := (here.takeWhile isWordPart).length
    (upTo? text n).map fun word => .ok (.ofWord (String.ofList word), n)
  else if ['.', '.', '.'].isPrefixOf here then some (.ok (.ellipsis, 3))
  else
    (numeral? here).map fun
      | some (.ok n) => .ok (.integer, n)
      | some (.error n) => .error n
      | none =>
        match here.head?.bind punctuation? with
        | some kind => .ok (kind, 1)
        | none => .error ((text.head?.map Char.utf8Size).getD 1)

/-- What was measured by characters, measured by bytes. -/
def sized (text : List Char) : Except Nat (Token.Kind × Nat) → Except Nat (Token.Kind × Nat)
  | .ok (kind, n) => .ok (kind, size (text.take n))
  | .error n => .error (size (text.take n))

theorem isAscii_of_isWordStart (h : isWordStart c = true) : isAscii c = true :=
  isAscii_of_isWordPart (isWordPart_of_isWordStart h)

theorem isAscii_of_punctuation? {kind : Token.Kind} (h : punctuation? c = some kind) :
    isAscii c = true := by
  unfold punctuation? at h
  split at h
  all_goals first | rfl | cases h

theorem head?_punctuation? (c : Char) (text : List Char) :
    (bytes (c :: text)).head?.bind punctuation? = punctuation? c := by
  cases hc : isAscii c with
  | true => rw [bytes_cons_of_isAscii hc, List.head?_cons, Option.bind_some]
  | false =>
    have hnone : ∀ x, isAscii x = false → punctuation? x = none := by
      intro x hx
      rw [Option.eq_none_iff_forall_ne_some]
      intro kind hkind
      rw [isAscii_of_punctuation? hkind] at hx
      cases hx
    obtain ⟨b, bs, hbytes, hb⟩ := exists_bytes_cons hc text
    rw [hbytes, List.head?_cons, Option.bind_some, hnone b hb, hnone c hc]

theorem lexeme?_eq (text : List Char) : lexeme? text = some (sized text (scan text)) := by
  cases text with
  | nil => rfl
  | cons c text =>
    have hne : bytes (c :: text) ≠ [] :=
      List.ne_nil_of_length_pos (size_pos (List.cons_ne_nil c text))
    rw [lexeme?, scan, List.head?_cons]
    simp only [if_neg hne, opensLine_bytes, opensBlock_bytes, lineLength_bytes, numeral?_eq,
      any_head?_bytes (fun _ => isAscii_of_isWordStart), length_takeWhile_word, List.head?_cons,
      Option.any_some, Option.map_some, Option.getD_some]
    rw [isPrefixOf_bytes rfl]
    split
    · rfl
    split
    · next hblock =>
      obtain ⟨inside, heq⟩ := eq_of_opensBlock hblock
      have hfrom : bytesFrom? (bytes (c :: text)) 2 = some (bytes inside) := by
        rw [heq]
        exact bytesFrom?_append ['/', '*'] inside
      have hfind := find?_block inside
      rw [← heq] at hfind
      rw [hfrom, Option.map_some, closing, position?_bytes rfl]
      cases hclosed : blockComment? (c :: text) with
      | none =>
        rw [hclosed, closing, Option.map_none, Option.map_eq_none_iff] at hfind
        rw [hfind, heq]
        rfl
      | some n =>
        rw [hclosed, closing] at hfind
        obtain ⟨k, hk, hsize⟩ := Option.map_eq_some_iff.mp hfind
        dsimp only at hsize
        rw [hk, sized, ← hsize]
    split
    · have htake : (c :: text).take (wordLength (c :: text)) = (c :: text).takeWhile isWordPart :=
        (List.prefix_iff_eq_take.mp (List.takeWhile_prefix _)).symm
      rw [sized, htake, ← htake, upTo?_size_take, htake]
      rfl
    split
    · next hdots =>
      obtain ⟨behind, heq⟩ := List.isPrefixOf_iff_prefix.mp hdots
      rw [← heq]
      rfl
    · rw [head?_punctuation?]
      cases hinteger : integerLength? (c :: text) with
      | some r =>
        cases r with
        | ok n => rw [sized, size_integer hinteger]
        | error n => rw [sized, size_integer_error hinteger]
      | none =>
        have hsize : size ((c :: text).take 1) = c.utf8Size := by
          rw [List.take_succ_cons, List.take_zero, size_cons, size_nil, Nat.add_zero]
        cases hmark : punctuation? c with
        | some kind =>
          rw [sized, hsize, utf8Size_of_isAscii (isAscii_of_punctuation? hmark)]
        | none => rw [sized, hsize]

/-! ## The tokens of a text -/

variable {source : String} {cursor : Cursor}

/-- The position behind the white space in front of it. -/
def skipLayout? (source : List Char) (p : Position) : Option Position := do
  let rest ← rest? source p
  bump? source p ((bytes rest).takeWhile isLayout).length

/-- The token right at a position, and the position behind it. -/
def token? (source : List Char) (p : Position) : Option (Except Error (Token × Position)) := do
  let rest ← rest? source p
  match ← lexeme? rest with
  | .ok (kind, n) =>
    return .ok (⟨kind, String.ofList (← upTo? rest n), p⟩, ← bump? source p n)
  | .error n => return .error (.unrecognized p (String.ofList (← upTo? rest n)))

/-- A round of `tokens?`. -/
def tokensStep (source : List Char) :
    Position × List Token → Option (Step (Position × List Token) (Except Error (List Token)))
  | (p, taken) => do
    match ← token? source (← skipLayout? source p) with
    | .error e => return .done (.error e)
    | .ok (t, behind) =>
      if t.kind = .endOfFile then return .done (.ok taken.reverse)
      else return .next (behind, t :: taken)

/-- The tokens of a text. -/
def tokens? (source : List Char) : Option (Except Error (List Token)) :=
  iterate (fun s => size source - s.1.offset) (tokensStep source) (.start, [])

theorem skipLayout?_eq (h : cursor.In source) :
    skipLayout? source.toList cursor.position = some (Token.skipLayout cursor).position := by
  have htake : cursor.rest.take (cursor.rest.takeWhile isLayout).length =
      cursor.rest.takeWhile isLayout := (List.prefix_iff_eq_take.mp (List.takeWhile_prefix _)).symm
  have hbump := bump?_of_in h (cursor.rest.takeWhile isLayout).length
  rw [htake] at hbump
  rw [skipLayout?, rest?_of_in h, Option.bind_eq_bind, Option.bind_some,
    takeWhile_bytes uniform_isLayout]
  exact hbump

theorem token?_eq (h : cursor.In source) :
    token? source.toList cursor.position =
      some ((Token.read cursor).map fun (t, behind) => (t, behind.position)) := by
  simp only [token?, rest?_of_in h, lexeme?_eq, Option.bind_eq_bind, Option.bind_some]
  rw [Token.read]
  cases scan cursor.rest with
  | error n =>
    simp only [sized, upTo?_size_take, Option.bind_some]
    rfl
  | ok found =>
    simp only [sized, upTo?_size_take, bump?_of_in h, Option.bind_some]
    rfl

theorem iterate_tokens (taken : List Token) (h : cursor.In source) :
    iterate (fun s => size source.toList - s.1.offset) (tokensStep source.toList)
      (cursor.position, taken) = some (Token.scanFrom taken cursor).toExcept := by
  have hstep : ∀ taken cursor, cursor.In source →
      tokensStep source.toList (cursor.position, taken) =
        some (match Token.read (Token.skipLayout cursor) with
          | .error e => .done (.error e)
          | .ok (t, behind) =>
            if t.kind = .endOfFile then .done (.ok taken.reverse)
            else .next (behind.position, t :: taken)) := by
    intro taken cursor h
    have hskip : (Token.skipLayout cursor).In source := h.move _
    simp only [tokensStep, skipLayout?_eq h, token?_eq hskip, Option.bind_eq_bind, Option.bind_some]
    cases Token.read (Token.skipLayout cursor) with
    | error e => rfl
    | ok found =>
      simp only [Except.map]
      split
      · rfl
      · rfl
  fun_induction Token.scanFrom taken cursor with
  | case1 taken c e hread =>
    have hround := hstep taken c h
    rw [hread] at hround
    exact iterate_done hround
  | case2 taken c t behind hread hk =>
    have hround := hstep taken c h
    simp only [hread, if_pos hk] at hround
    exact iterate_done hround
  | case3 taken c t behind hread hk ih =>
    have hround := hstep taken c h
    simp only [hread, if_neg hk] at hround
    have hbehind := (Token.isAt_of_read (h.move _) hread).2
    have hlt := Nat.lt_of_lt_of_le (Token.read_shorter hread hk) (Token.length_skipLayout c)
    rw [iterate_next hround (left_lt_of_in h hbehind hlt)]
    exact ih hbehind

theorem tokens?_eq (source : String) :
    tokens? source.toList = some (Token.scanText source).toExcept :=
  iterate_tokens [] (Cursor.in_ofText source)

end EngineHeader.Checked
