import EngineHeader.Proofs.Position
import EngineHeader.Text.Character
import EngineHeader.Text.Comment
import Mathlib

/-!
# Bytes and slices

A text can be read by its bytes and cut at offsets in bytes.  A cut is good only if it is in the
text and between two characters (`split?_eq_some_iff`).  Where a cut is not good there is no result,
so a definition that always has a result cuts well wherever it cuts.

The bytes of a text are given as characters: each byte is the character of its number.  So an ASCII
character is its own byte, and no byte of another character is an ASCII character.  This is why a
scan by bytes finds the same as a scan by characters, as long as it looks for ASCII characters
(`takeWhile_bytes`, `isPrefixOf_bytes`, `position?_bytes`).
-/

namespace EngineHeader.Checked

open Text

/-! ## Bytes -/

/-- A character that is its own byte. -/
def isAscii (c : Char) : Bool := c.toNat < 128

/-- The bytes of a character, each as the character of its number. -/
def bytesOf (c : Char) : List Char := (String.utf8EncodeChar c).map UInt8.toChar

/-- The bytes of a text. -/
def bytes (text : List Char) : List Char := text.flatMap bytesOf

/-- How many bytes a text has. -/
def size (text : List Char) : Nat := (bytes text).length

variable {c : Char} {text front rest : List Char}

theorem bytesOf_of_isAscii (h : isAscii c = true) : bytesOf c = [c] := by
  have hlt : c.val.toNat < 128 := of_decide_eq_true h
  have hsize : c.utf8Size = 1 := by
    rw [Char.utf8Size_eq_one_iff, UInt32.le_iff_toNat_le]
    exact Nat.le_of_lt_succ hlt
  rw [bytesOf, String.utf8EncodeChar_eq_singleton hsize]
  refine congrArg (fun x => [x]) (Char.ext (UInt32.toNat_inj.mp ?_))
  change c.val.toUInt8.toNat = c.val.toNat
  rw [UInt32.toNat_toUInt8]
  exact Nat.mod_eq_of_lt (by omega)

theorem isAscii_of_mem_bytesOf (h : isAscii c = false) : ∀ b ∈ bytesOf c, isAscii b = false := by
  have hlt : ¬ c.val.toNat ≤ 127 := by
    intro hle
    exact of_decide_eq_false h (Nat.lt_succ_of_le hle)
  intro b hb
  obtain ⟨u, hu, rfl⟩ := List.mem_map.mp hb
  have hval : u.toChar.toNat = u.toNat := rfl
  rw [isAscii, hval, decide_eq_false_iff_not]
  simp only [String.utf8EncodeChar, hlt, if_false] at hu
  split_ifs at hu
  all_goals
    simp only [List.mem_cons, List.not_mem_nil, or_false] at hu
    rcases hu with rfl | rfl | rfl | rfl
    all_goals
      simp
      omega

theorem length_bytesOf (c : Char) : (bytesOf c).length = c.utf8Size := by
  rw [bytesOf, List.length_map, String.length_utf8EncodeChar]

/-- The bytes of a character are one or more. -/
theorem exists_bytesOf (c : Char) : ∃ b bs, bytesOf c = b :: bs := by
  refine List.exists_cons_of_ne_nil fun hnil => ?_
  have hlength := length_bytesOf c
  have hpos := c.utf8Size_pos
  rw [hnil] at hlength
  exact absurd hlength (Nat.ne_of_lt hpos)

@[simp] theorem bytes_nil : bytes [] = [] := rfl

theorem bytes_cons (c : Char) (text : List Char) : bytes (c :: text) = bytesOf c ++ bytes text :=
  List.flatMap_cons

theorem bytes_cons_of_isAscii (h : isAscii c = true) (text : List Char) :
    bytes (c :: text) = c :: bytes text := by
  rw [bytes_cons, bytesOf_of_isAscii h, List.singleton_append]

/-- The first byte of a character that is not ASCII is not ASCII either. -/
theorem exists_bytes_cons (h : isAscii c = false) (text : List Char) :
    ∃ b bs, bytes (c :: text) = b :: bs ∧ isAscii b = false := by
  obtain ⟨b, bs, hb⟩ := exists_bytesOf c
  refine ⟨b, bs ++ bytes text, ?_, isAscii_of_mem_bytesOf h b (hb ▸ List.mem_cons_self)⟩
  rw [bytes_cons, hb, List.cons_append]

theorem bytes_append (a b : List Char) : bytes (a ++ b) = bytes a ++ bytes b :=
  List.flatMap_append

/-- A text of ASCII characters is its own bytes. -/
theorem bytes_eq_self (h : ∀ c ∈ text, isAscii c = true) : bytes text = text := by
  induction text with
  | nil => rfl
  | cons c text ih =>
    obtain ⟨hc, htext⟩ := List.forall_mem_cons.mp h
    rw [bytes_cons_of_isAscii hc, ih htext]

@[simp] theorem size_nil : size [] = 0 := rfl

@[simp] theorem size_cons (c : Char) (text : List Char) :
    size (c :: text) = c.utf8Size + size text := by
  rw [size, bytes_cons, List.length_append, length_bytesOf, size]

@[simp] theorem size_append (a b : List Char) : size (a ++ b) = size a + size b := by
  rw [size, bytes_append, List.length_append, size, size]

theorem size_eq_length (h : ∀ c ∈ text, isAscii c = true) : size text = text.length := by
  rw [size, bytes_eq_self h]

theorem utf8Size_of_isAscii (h : isAscii c = true) : c.utf8Size = 1 := by
  rw [← length_bytesOf, bytesOf_of_isAscii h, List.length_singleton]

theorem size_pos (h : text ≠ []) : 0 < size text := by
  obtain ⟨c, text, rfl⟩ := List.exists_cons_of_ne_nil h
  have hpos := c.utf8Size_pos
  rw [size_cons]
  omega

theorem size_take_add_drop (n : Nat) (text : List Char) :
    size (text.take n) + size (text.drop n) = size text := by
  rw [← size_append, List.take_append_drop]

/-- A position counts the bytes in front of it. -/
theorem offset_advance (front : List Char) :
    (Position.start.advance front).offset = size front := by
  have hsize : ∀ text : List Char, (String.ofList text).utf8ByteSize = size text := by
    intro text
    induction text with
    | nil => rfl
    | cons c text ih =>
      rw [String.utf8ByteSize_ofList] at ih ⊢
      rw [size_cons, ← ih, Nat.add_comm]
      rfl
  rw [Position.offset_advance, hsize]
  exact Nat.zero_add _

/-! ## Scanning bytes -/

/-- All characters that are not ASCII are in the class, or none. -/
def Uniform (p : Char → Bool) : Prop := ∃ v, ∀ c, isAscii c = false → p c = v

/-- A class of ASCII characters has no others. -/
theorem eq_false_of_isAscii {p : Char → Bool} (hp : ∀ c, p c = true → isAscii c = true)
    (h : isAscii c = false) : p c = false := by
  rw [Bool.eq_false_iff]
  intro htrue
  rw [hp c htrue] at h
  cases h

theorem uniform_of_isAscii {p : Char → Bool} (hp : ∀ c, p c = true → isAscii c = true) :
    Uniform p := ⟨false, fun _ => eq_false_of_isAscii hp⟩

/-- A run of a class ends at the same place. -/
theorem takeWhile_bytes {p : Char → Bool} (hp : Uniform p) (text : List Char) :
    (bytes text).takeWhile p = bytes (text.takeWhile p) := by
  obtain ⟨v, hv⟩ := hp
  induction text with
  | nil => rfl
  | cons c text ih =>
    cases hc : isAscii c with
    | true =>
      rw [bytes_cons_of_isAscii hc, List.takeWhile_cons, List.takeWhile_cons]
      split
      · rw [bytes_cons_of_isAscii hc, ih]
      · rfl
    | false =>
      have hbytes := isAscii_of_mem_bytesOf hc
      rw [bytes_cons, List.takeWhile_cons, hv c hc]
      cases v with
      | true =>
        rw [if_pos rfl, List.takeWhile_append_of_pos (fun b hb => hv b (hbytes b hb)), ih,
          bytes_cons]
      | false =>
        obtain ⟨b, bs, hb⟩ := exists_bytesOf c
        have hhead : p b = false := hv b (hbytes b (hb ▸ List.mem_cons_self))
        rw [hb, List.cons_append, List.takeWhile_cons, hhead]
        rfl

/-- A pattern that begins with an ASCII character does not stand at another byte. -/
theorem isPrefixOf_middle {p b : Char} (hp : isAscii p = true) (hb : isAscii b = false)
    (pattern post : List Char) : (p :: pattern).isPrefixOf (b :: post) = false := by
  have hne : (p == b) = false := by
    rw [beq_eq_false_iff_ne]
    rintro rfl
    rw [hp] at hb
    cases hb
  rw [List.isPrefixOf_cons_cons, hne, Bool.false_and]

/-- A text of ASCII characters stands in front of the bytes if it stands in front of the text. -/
theorem isPrefixOf_bytes {pattern : List Char} (hpattern : pattern.all isAscii = true)
    (text : List Char) : pattern.isPrefixOf (bytes text) = pattern.isPrefixOf text := by
  induction pattern generalizing text with
  | nil => rfl
  | cons p pattern ih =>
    obtain ⟨hp, hpattern⟩ := Bool.and_eq_true_iff.mp hpattern
    cases text with
    | nil => rfl
    | cons c text =>
      cases hc : isAscii c with
      | true =>
        rw [bytes_cons_of_isAscii hc, List.isPrefixOf_cons_cons, List.isPrefixOf_cons_cons,
          ih hpattern]
      | false =>
        obtain ⟨b, bs, hb, hascii⟩ := exists_bytes_cons hc text
        rw [hb, isPrefixOf_middle hp hascii, isPrefixOf_middle hp hc]

/-- What stands in front of a pattern, where each character counts for so much. -/
def findBy (weight : Char → Nat) (pattern : List Char) : List Char → Option Nat
  | [] => none
  | c :: text =>
    if pattern.isPrefixOf (c :: text) then some 0
    else (findBy weight pattern text).map (weight c + ·)

/-- The offset of a pattern in a text. -/
def find? (pattern text : List Char) : Option Nat := findBy Char.utf8Size pattern text

/-- The index of a pattern in bytes. -/
def position? (pattern bytes : List Char) : Option Nat := findBy (fun _ => 1) pattern bytes

theorem find?_cons (pattern : List Char) (c : Char) (text : List Char) :
    find? pattern (c :: text) =
      if pattern.isPrefixOf (c :: text) then some 0
      else (find? pattern text).map (c.utf8Size + ·) := rfl

theorem position?_cons (pattern : List Char) (b : Char) (bs : List Char) :
    position? pattern (b :: bs) =
      if pattern.isPrefixOf (b :: bs) then some 0
      else (position? pattern bs).map (1 + ·) := rfl

/-- A pattern is passed over bytes that are not ASCII characters. -/
theorem position?_append {p : Char} {pattern skipped : List Char} (hp : isAscii p = true)
    (hskipped : ∀ b ∈ skipped, isAscii b = false) (bs : List Char) :
    position? (p :: pattern) (skipped ++ bs) =
      (position? (p :: pattern) bs).map (skipped.length + ·) := by
  induction skipped with
  | nil => simp
  | cons b skipped ih =>
    obtain ⟨hb, hskipped⟩ := List.forall_mem_cons.mp hskipped
    rw [List.cons_append, position?_cons, isPrefixOf_middle hp hb, if_neg Bool.false_ne_true,
      ih hskipped, Option.map_map, List.length_cons]
    refine congrArg (Option.map · _) (funext fun n => ?_)
    simp only [Function.comp_apply]
    omega

/-- A pattern of ASCII characters is found in the bytes where it is found in the text. -/
theorem position?_bytes {p : Char} {pattern : List Char}
    (hpattern : (p :: pattern).all isAscii = true) (text : List Char) :
    position? (p :: pattern) (bytes text) = find? (p :: pattern) text := by
  induction text with
  | nil => rfl
  | cons c text ih =>
    have hstands := isPrefixOf_bytes hpattern (c :: text)
    cases hc : isAscii c with
    | true =>
      rw [bytes_cons_of_isAscii hc] at hstands ⊢
      rw [position?_cons, hstands, ih, find?_cons, utf8Size_of_isAscii hc]
    | false =>
      have hp := (Bool.and_eq_true_iff.mp hpattern).1
      rw [bytes_cons, position?_append hp (isAscii_of_mem_bytesOf hc), ih, length_bytesOf,
        find?_cons, isPrefixOf_middle hp hc, if_neg Bool.false_ne_true]

/-! ## Slices -/

/-- A text cut at an offset. -/
def split? : List Char → Nat → Option (List Char × List Char)
  | text, 0 => some ([], text)
  | [], _ + 1 => none
  | c :: text, n + 1 =>
    if c.utf8Size ≤ n + 1 then
      (split? text (n + 1 - c.utf8Size)).map fun (front, rest) => (c :: front, rest)
    else none

/-- The text from an offset on. -/
def from? (text : List Char) (n : Nat) : Option (List Char) := (split? text n).map Prod.snd

/-- The text up to an offset. -/
def upTo? (text : List Char) (n : Nat) : Option (List Char) := (split? text n).map Prod.fst

/-- The bytes from an index on. -/
def bytesFrom? (bytes : List Char) (n : Nat) : Option (List Char) :=
  if n ≤ bytes.length then some (bytes.drop n) else none

/-- A text can be cut where one of its characters ends and the next begins, and only there. -/
theorem split?_eq_some_iff {n : Nat} :
    split? text n = some (front, rest) ↔ text = front ++ rest ∧ size front = n := by
  fun_induction split? text n generalizing front with
  | case1 text =>
    constructor
    · intro h
      cases h
      exact ⟨rfl, rfl⟩
    · rintro ⟨rfl, hsize⟩
      cases front with
      | nil => rfl
      | cons c front => exact absurd hsize (Nat.ne_of_gt (size_pos (List.cons_ne_nil c front)))
  | case2 n =>
    constructor
    · intro h
      cases h
    · rintro ⟨htext, hsize⟩
      obtain ⟨rfl, -⟩ := List.append_eq_nil_iff.mp htext.symm
      cases hsize
  | case3 c text n hle ih =>
    constructor
    · intro h
      obtain ⟨⟨front', rest'⟩, hsplit, heq⟩ := Option.map_eq_some_iff.mp h
      cases heq
      obtain ⟨rfl, hsize⟩ := ih.mp hsplit
      exact ⟨rfl, by rw [size_cons]; omega⟩
    · rintro ⟨htext, hsize⟩
      cases front with
      | nil => cases hsize
      | cons d front =>
        obtain ⟨rfl, hrest⟩ := List.cons.inj htext
        rw [size_cons] at hsize
        have hsplit := ih.mpr ⟨hrest, by omega⟩
        rw [hsplit]
        rfl
  | case4 c text n hle =>
    constructor
    · intro h
      cases h
    · rintro ⟨htext, hsize⟩
      cases front with
      | nil => cases hsize
      | cons d front =>
        obtain ⟨rfl, -⟩ := List.cons.inj htext
        rw [size_cons] at hsize
        omega

@[simp] theorem from?_append (front rest : List Char) :
    from? (front ++ rest) (size front) = some rest := by
  rw [from?, split?_eq_some_iff.mpr ⟨rfl, rfl⟩]
  rfl

@[simp] theorem upTo?_append (front rest : List Char) :
    upTo? (front ++ rest) (size front) = some front := by
  rw [upTo?, split?_eq_some_iff.mpr ⟨rfl, rfl⟩]
  rfl

theorem from?_size_take (n : Nat) (text : List Char) :
    from? text (size (text.take n)) = some (text.drop n) := by
  have hfrom := from?_append (text.take n) (text.drop n)
  rwa [List.take_append_drop] at hfrom

theorem upTo?_size_take (n : Nat) (text : List Char) :
    upTo? text (size (text.take n)) = some (text.take n) := by
  have hupTo := upTo?_append (text.take n) (text.drop n)
  rwa [List.take_append_drop] at hupTo

@[simp] theorem bytesFrom?_append (front rest : List Char) :
    bytesFrom? (bytes (front ++ rest)) (size front) = some (bytes rest) := by
  rw [bytesFrom?, bytes_append, if_pos (by simp [size]), size, List.drop_left]

/-! ## Loops -/

/-- What one round of a loop gives. -/
inductive Step (σ α : Type) where
  /-- The loop goes on. -/
  | next (state : σ)
  /-- The loop ends. -/
  | done (result : α)

/-- A loop.  Every round has to leave less to do, and otherwise there is no result. -/
def iterate {σ α : Type} (left : σ → Nat) (step : σ → Option (Step σ α)) (s : σ) : Option α :=
  match step s with
  | none => none
  | some (.done a) => some a
  | some (.next s') => if left s' < left s then iterate left step s' else none
termination_by left s

variable {σ α : Type} {left : σ → Nat} {step : σ → Option (Step σ α)} {s s' : σ} {a : α}

theorem iterate_done (h : step s = some (.done a)) : iterate left step s = some a := by
  rw [iterate, h]

theorem iterate_next (h : step s = some (.next s')) (hlt : left s' < left s) :
    iterate left step s = iterate left step s' := by
  rw [iterate, h]
  exact if_pos hlt

end EngineHeader.Checked
