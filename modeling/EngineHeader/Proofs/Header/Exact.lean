import EngineHeader.Proofs.Directive.Faults
import EngineHeader.Proofs.Header.Layout
import EngineHeader.Proofs.Token.Exact

/-!
# Exact errors

Every position that is reported is exact: it falls between two characters of the source, and its
line and its column are those to which the text in front of it leads (`positions_exact`).  This
holds of the tokens of declarations, of the segments of a header and its end, and of every error.

An error is where its text says (`Error.IsExact`).  Text that was not recognized stands there, or a
directive with the name that the fault gives begins there, or the token that the grammar cannot use.
If the grammar needs more than there is, then the error is at the end of the source.
-/

namespace EngineHeader

/-- The error is where it says. -/
inductive Error.IsExact (source : String) : Error → Prop where
  | unrecognized {e : Error} : e.Unrecognized source → IsExact source e
  | directive {p : Position} {fault : Directive.Fault} :
    fault.IsAt source p → IsExact source (.directive p fault)
  | token {found : Token} {expected : Declaration.Expected} :
    found ∈ Token.significant (Token.scanText source).items → found.IsAt source →
    found.describe ≠ "end of file" → IsExact source (.grammar found expected)
  | atEnd {found : Token} {expected : Declaration.Expected} :
    found.describe = "end of file" → IsEnd source found.position →
    IsExact source (.grammar found expected)

/-- Only the token that ends a text is described as the end. -/
theorem Token.describe_ne_endOfFile {t : Token} (h : t.kind ≠ .endOfFile) :
    t.describe ≠ "end of file" := by
  obtain ⟨kind, text, p⟩ := t
  cases kind with
  | endOfFile => exact absurd rfl h
  | identifier =>
    intro heq
    have hhead := congrArg (·.toList.head?) heq
    simp [describe] at hhead
  | integer =>
    intro heq
    have hhead := congrArg (·.toList.head?) heq
    simp [describe] at hhead
  | _ => simp [describe, Kind.describe]

namespace Header

open Declaration.Parser
open Token (Words scanText significant)

variable {d : Dialect} {source : String} {e : Error}

/-- What is wrong with the declarations of a text is where it is said to be. -/
theorem isExact_of_ofText (h : ofText d source = .error e) : e.IsExact source := by
  obtain ⟨hat, herror⟩ := Token.scanText_isAt source
  cases hs : (scanText source).error? with
  | some e' =>
    rw [ofText_of_error hs] at h
    cases h
    exact .unrecognized (herror _ hs)
  | none =>
    rw [ofText_of_scanned hs] at h
    split at h
    · cases h
    · next stuck hstuck =>
      cases h
      obtain ⟨front, hwords, _⟩ := ofWords_stuck hstuck
      obtain ⟨rest, expected⟩ := stuck
      cases rest with
      | nil => exact .atEnd rfl (isEnd_advance source)
      | cons w rest =>
        have hmem : w.token ∈ significant (scanText source).items := by
          rw [← Words.map_token_ofTokens, hwords]
          simp
        obtain ⟨ht, hk⟩ := hat _ (List.mem_of_mem_filter hmem)
        exact .token hmem ht (Token.describe_ne_endOfFile hk)

/-- Every token, every segment, the end of the text and every error is where it says, whatever the
lexers are asked to do. -/
theorem positions_exact (d : Dialect) (source : String) :
    (∀ l, Lexer.Reached source l →
      ((∀ t, l.token.1 = .ok t → t.IsAt source) ∧
        ∀ e, l.token.1 = .error e → e.Unrecognized source) ∧
      (∀ t, l.next.1 = some (.ok t) → t.IsAt source) ∧
        ∀ e, l.next.1 = some (.error e) → e.Unrecognized source) ∧
    (∀ c, Directive.Segment.Reached source c →
      (∀ s behind h, Directive.Segment.read c = .ok (.segment s behind h) → s.IsAt source) ∧
      (∀ behind, Directive.Segment.read c = .ok (.nothing behind) →
        IsEnd source behind.position) ∧
      ∀ e, Directive.Segment.read c = .error e → e.Unrecognized source) ∧
    (∀ e, Directive.ofText source = .error e → e.IsExact source) ∧
    ∀ e, ofText d source = .error e → e.IsExact source := by
  refine ⟨fun l hl => ⟨hl.token_isAt, hl.next_isAt⟩, fun c hc => hc.isAt, fun e he => ?_,
    fun e => isExact_of_ofText⟩
  rcases Directive.isAt_of_ofText he with hlexical | ⟨p, fault, rfl, hfault⟩
  · exact .unrecognized hlexical
  · exact .directive hfault

/-- A block that is left open, behind a comment with a letter of two bytes, and a closed one in it.
-/
theorem positions_exact_open_block :
    Directive.ofText "/* é */#ifdef A\n#ifndef B\n#endif\n" =
        .error (.directive ⟨8, 1, 8⟩ (.unterminated .defined "A")) ∧
      Directive.Fault.IsAt "/* é */#ifdef A\n#ifndef B\n#endif\n" ⟨8, 1, 8⟩
        (.unterminated .defined "A") := by
  have hscan : Directive.Segment.scanText "/* é */#ifdef A\n#ifndef B\n#endif\n" =
      ⟨[⟨.line ⟨"ifdef", some (.word "A"), ""⟩, ⟨8, 1, 8⟩⟩,
        ⟨.line ⟨"ifndef", some (.word "B"), ""⟩, ⟨17, 2, 1⟩⟩,
        ⟨.line ⟨"endif", none, ""⟩, ⟨27, 3, 1⟩⟩], none⟩ := by cbv
  have herror : Directive.ofText "/* é */#ifdef A\n#ifndef B\n#endif\n" =
      .error (.directive ⟨8, 1, 8⟩ (.unterminated .defined "A")) := by
    rw [Directive.ofText, hscan]
    rfl
  cases (positions_exact .native _).2.2.1 _ herror with
  | unrecognized h =>
    obtain ⟨_, _, h, _⟩ := h
    cases h
  | directive h => exact ⟨herror, h⟩

end Header

end EngineHeader
