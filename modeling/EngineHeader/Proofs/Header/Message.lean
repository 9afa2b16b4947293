import EngineHeader.Header
import EngineHeader.Proofs.Header.Exact

/-!
# Messages

What is said of a header that cannot be read is a single line (`Header.oneLine_message_of_read`).
Text of the header gets into a message in three ways.  What is not recognized is quoted, and quotes
have no line feed in them.  Identifiers and integers are shown as they are spelled, and so are the
names of directives and what they test.  There is no line feed in any of these.
-/

namespace EngineHeader

open Text
open Token (isNumberPart isNumberPart_of_integer isWordPart_of_isIdentifier isName_of_scan)

/-! ## Texts without a line feed -/

/-- The text has no line feed. -/
def OneLine (text : String) : Prop := '\n' ∉ text.toList

instance (text : String) : Decidable (OneLine text) := inferInstanceAs (Decidable (_ ∉ _))

theorem OneLine.append {a b : String} (ha : OneLine a) (hb : OneLine b) : OneLine (a ++ b) := by
  rw [OneLine, String.toList_append, List.mem_append]
  exact not_or_intro ha hb

/-- The characters of a text are in a class that the line feed is not in. -/
theorem oneLine_of_forall {p : Char → Bool} {text : List Char} (hp : p '\n' = false)
    (h : ∀ c ∈ text, p c = true) : OneLine (String.ofList text) := by
  intro hmem
  rw [String.toList_ofList] at hmem
  rw [h _ hmem] at hp
  cases hp

theorem feed_not_mem_toDigits (base : Nat) (hbase : 1 < base) (hlimit : base ≤ 16) (n : Nat) :
    '\n' ∉ Nat.toDigits base n := by
  have hdigit : ∀ d < 16, '\n' ≠ Nat.digitChar d := by decide
  induction n using Nat.strongRecOn with
  | ind n ih =>
  rw [Nat.toDigits_eq_if hbase]
  split
  · exact fun hmem => hdigit n (by omega) (List.mem_singleton.mp hmem)
  · have hlast : n % base < base := Nat.mod_lt n (by omega)
    rw [List.mem_append, List.mem_singleton]
    exact not_or_intro (ih (n / base) (Nat.div_lt_self (by omega) hbase))
      (hdigit (n % base) (by omega))

theorem oneLine_toString (n : Nat) : OneLine (toString n) := by
  rw [show toString n = n.repr from rfl, Nat.repr_eq_ofList_toDigits, OneLine, String.toList_ofList]
  exact feed_not_mem_toDigits 10 (by decide) (by decide) n

theorem oneLine_position (p : Position) : OneLine (toString p) :=
  ((oneLine_toString p.line).append (by decide)).append (oneLine_toString p.column)

theorem feed_not_mem_quoteChar (c : Char) : '\n' ∉ quoteChar c := by
  have hdigits := feed_not_mem_toDigits 16 (by decide) (by decide) c.toNat
  unfold quoteChar
  split
  case h_7 hfeed _ _ _ =>
    split
    · exact fun hmem => hfeed (List.mem_singleton.mp hmem).symm
    · simp [hdigits]
  all_goals decide

theorem oneLine_quoted (text : String) : OneLine (quoted text) := by
  rw [OneLine, quoted, String.toList_ofList]
  simp [feed_not_mem_quoteChar]

/-! ## Tokens -/

/-- Only an integer has the kind of an integer. -/
theorem Token.isNumberPart_of_scan {text : List Char} {n : Nat}
    (h : scan text = .ok (.integer, n)) : ∀ c ∈ text.take n, isNumberPart c = true := by
  generalize hk : Kind.integer = kind at h
  cases lexes_of_scan h with
  | integer hn => exact isNumberPart_of_integer hn
  | word _ => exact absurd hk.symm (ofWord_ne _ (by decide) (by decide))
  | mark hmark =>
    subst hk
    unfold punctuation? at hmark
    split at hmark <;> cases hmark
  | _ => cases hk

theorem Token.oneLine_describe_of_read {c c' : Cursor} {t : Token} (h : read c = .ok (t, c')) :
    OneLine t.describe := by
  obtain ⟨n, hscan, htext, _⟩ := exists_of_read h
  rw [describe, htext]
  split
  · next hkind =>
    rw [hkind] at hscan
    have hname : OneLine (c.peek n) := oneLine_of_forall (p := isWordPart) rfl fun x hx =>
      isWordPart_of_isIdentifier (isName_of_scan hscan).identifier x (by rwa [String.toList_ofList])
    exact (OneLine.append (by decide) hname).append (by decide)
  · next hkind =>
    rw [hkind] at hscan
    have hnumber : OneLine (c.peek n) :=
      oneLine_of_forall (p := isNumberPart) rfl (isNumberPart_of_scan hscan)
    exact OneLine.append (by decide) hnumber
  · cases t.kind <;> decide

theorem Token.oneLine_describe {source : String} {t : Token}
    (h : t ∈ significant (scanText source).items) : OneLine t.describe :=
  scanFrom_forall Token.oneLine_describe_of_read [] _ (List.forall_mem_nil _) t
    (List.mem_filter.mp h).1

theorem Declaration.Expected.oneLine_text (expected : Expected) : OneLine expected.text := by
  cases expected with
  | shallower =>
    exact (OneLine.append (by decide) (oneLine_toString _)).append (by decide)
  | _ => decide

/-! ## Directives -/

namespace Directive

/-- The name of a directive, and a word that it tests, are words of a line. -/
theorem Segment.IsAt.oneLine {source : String} {line : Line} {p : Position}
    (h : Segment.IsAt source ⟨.line line, p⟩) :
    OneLine line.name ∧ ∀ n, line.argument? = some (.word n) → OneLine n := by
  cases h with
  | line _ => 
    refine ⟨oneLine_of_forall (p := isWordPart) rfl fun c hc => List.mem_takeWhile_imp hc, ?_⟩
    intro n hn
    obtain ⟨c, cs, hname, hc, hcs⟩ := exists_of_readArgument hn
    rw [← String.ofList_toList (s := n), hname]
    exact oneLine_of_forall (p := isWordPart) rfl (List.forall_mem_cons.mpr ⟨hc, hcs⟩)

theorem Fault.oneLine_message {source : String} {p : Position} {fault : Fault}
    (h : fault.IsAt source p) : OneLine fault.message := by
  obtain ⟨front, line, behind, _, hat, hname, hopen⟩ := h
  obtain ⟨hline, hword⟩ := hat.oneLine
  have hkeyword (k : Keyword) : OneLine k.text := by cases k <;> decide
  cases fault with
  | unmatchedEndif => decide
  | unterminated c n =>
    have hn := hword n (hopen c n rfl).1
    exact (((OneLine.append (by decide) (hkeyword _)).append (by decide)).append hn).append
      (by decide)
  | missingArgument k => exact (OneLine.append (by decide) (hkeyword k)).append (by decide)
  | missingName => decide
  | unsupported name =>
    rw [hname] at hline
    exact OneLine.append (by decide) hline
  | trailingText k => exact OneLine.append (by decide) (hkeyword k)

end Directive

/-! ## Headers -/

theorem Error.oneLine_message {source : String} {e : Error} (h : e.IsExact source) :
    OneLine e.message := by
  have hexpected (expected : Declaration.Expected) :
      OneLine ("expected " ++ expected.text ++ ", found ") :=
    (OneLine.append (by decide) expected.oneLine_text).append (by decide)
  have hcause : OneLine e.cause := by
    cases h with
    | unrecognized h =>
      obtain ⟨p, found, rfl, _⟩ := h
      exact OneLine.append (by decide) (oneLine_quoted found)
    | directive hfault => exact Directive.Fault.oneLine_message hfault
    | @token found expected hmem _ _ =>
      exact (hexpected expected).append (Token.oneLine_describe hmem)
    | @atEnd found expected hend _ =>
      have hfound : OneLine found.describe := by
        rw [hend]
        decide
      exact (hexpected expected).append hfound
  exact ((oneLine_position e.position).append (by decide)).append hcause

/-- What is said of a header that cannot be read is a single line. -/
theorem Header.oneLine_message_of_read {c : Config} {source : String} {e : Error}
    (h : Header.read c source = .error e) : OneLine e.message := by
  rcases Directive.of_bind_eq_error h with hflat | ⟨text, _, hread⟩
  · rcases Directive.of_bind_eq_error hflat with htree | ⟨ds, _, hnone⟩
    · rcases Directive.isAt_of_ofText htree with hfound | ⟨p, fault, rfl, hat⟩
      · exact Error.oneLine_message (.unrecognized hfound)
      · exact Error.oneLine_message (.directive hat)
    · cases hnone
  · exact Error.oneLine_message (Header.isExact_of_ofText hread)

end EngineHeader
