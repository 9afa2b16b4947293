import EngineHeader.Proofs.Declaration.Joined
import EngineHeader.Proofs.Declaration.Recognition

/-!
# Headers one behind the other

A text that is read as a header may be followed by a line feed and any other text.  What that text
declares alone goes behind, and an error in it is the same error further down
(`Header.ofText_append`).

The line feed keeps the tokens of the two texts apart, also where the first ends in a word or in a
line comment.  The tokens of the second are those that it has alone, behind whole lines.  So their
offsets and lines are others and their columns are the same.
-/

namespace EngineHeader

open Declaration.Parser

namespace Token

variable {t u : Token} {bytes lines : Nat}

/-- A token that stands behind whole lines is shifted by them. -/
theorem Moved.eq_shift (h : Moved (Position.start.shift bytes lines) .start t u) :
    t = u.shift bytes lines := by
  obtain ⟨hkind, htext, between, ht, hu⟩ := h
  rw [Position.advance_shift, ← hu] at ht
  obtain ⟨kind, text, position⟩ := t
  cases hkind
  cases htext
  cases ht
  rfl

/-- Behind whole lines a text is read as it is alone. -/
theorem reads_shift (bytes lines : Nat) (text : String) :
    ∃ ts e, Reads (Position.start.shift bytes lines) text.toList ts e ∧
      List.Forall₂ (Moved (Position.start.shift bytes lines) .start) ts (scanText text).items ∧
      e = (scanText text).error?.map (·.shift bytes lines) := by
  obtain ⟨ts, _, hthere⟩ := reads_scanFrom [] ⟨text.toList, Position.start.shift bytes lines⟩
  obtain ⟨us, e', halone, hmoved, herror⟩ := hthere.move .start
  refine ⟨ts, _, hthere, ?_⟩
  rw [halone.scanText_eq]
  refine ⟨hmoved, ?_⟩
  rcases herror with ⟨hnone, rfl⟩ | ⟨between, found, hsome, rfl⟩
  · exact hnone
  · rw [Position.advance_shift] at hsome
    exact hsome

end Token

namespace Header

open Token (Words Reads Moved scanText)

variable {d : Dialect} {a : String}

/-- The place behind a text that stands on the lines behind another. -/
theorem advance_append_feed (a b : String) :
    Position.start.advance (a ++ "\n" ++ b).toList =
      (Position.start.advance b.toList).shift (a.utf8ByteSize + 1) (a.toList.count '\n' + 1) := by
  have hfeed := Position.start_advance_feed a.toList
  rw [String.ofList_toList] at hfeed
  rw [← Position.advance_shift, ← hfeed, String.toList_append, String.toList_append,
    Position.advance_append, Position.advance_append]
  rfl

/-- The tokens of a text are followed by those of another text on the next line. -/
theorem scanText_append (ha : (scanText a).error? = none) (b : String) :
    ∃ ts, scanText (a ++ "\n" ++ b) =
        ⟨(scanText a).items ++ ts, (scanText b).error?.map
          (·.shift (a.utf8ByteSize + 1) (a.toList.count '\n' + 1))⟩ ∧
      List.Forall₂ (Moved (Position.start.shift (a.utf8ByteSize + 1) (a.toList.count '\n' + 1))
        .start) ts (scanText b).items := by
  obtain ⟨ts, e, hreads, hmoved, rfl⟩ :=
    Token.reads_shift (a.utf8ByteSize + 1) (a.toList.count '\n' + 1) b
  refine ⟨ts, ?_, hmoved⟩
  have hfront := Token.reads_scanText a
  rw [ha] at hfront
  have hfeed : (Position.start.advance a.toList).next '\n' =
      Position.start.shift (a.utf8ByteSize + 1) (a.toList.count '\n' + 1) := by
    rw [Position.start_advance_feed, String.ofList_toList]
  rw [← hfeed] at hreads
  apply Reads.scanText_eq
  rw [String.toList_append, String.toList_append, List.append_assoc]
  exact hfront.append (.layout rfl hreads)

/-- Where words get stuck that stand behind whole lines, they get stuck alone, and the error is
shifted by the lines. -/
theorem stuck_error_shift {bytes lines : Nat} {s s' : Stuck}
    (hrest : (moved (Position.start.shift bytes lines) .start).words s.rest s'.rest)
    (hexpected : s.expected = s'.expected) (p : Position) :
    s.error (p.shift bytes lines) = (s'.error p).shift bytes lines := by
  obtain ⟨rest, expected⟩ := s
  obtain ⟨rest', expected'⟩ := s'
  cases hexpected
  cases hrest with
  | nil => rfl
  | cons hw _ => exact congrArg (Error.grammar · expected) hw.token.eq_shift

/-- Headers are read one behind the other.  A text that is read may be followed by another on the
next line.  That is read as it is alone, and its declarations go behind, or it is wrong as it is
alone, at a place that has the bytes and the lines of the first text more. -/
theorem ofText_append (d : Dialect) (a b : String) {x : Header} (hx : ofText d a = .ok x) :
    (∀ y, ofText d b = .ok y →
      ofText d (a ++ "\n" ++ b) = .ok ⟨x.declarations ++ y.declarations⟩) ∧
    ∀ e, ofText d b = .error e →
      ofText d (a ++ "\n" ++ b) =
        .error (e.shift (a.utf8ByteSize + 1) (a.toList.count '\n' + 1)) := by
  obtain ⟨ha, hwords⟩ := ofText_eq_ok_iff.mp hx
  obtain ⟨ts, hscan, hmoved⟩ := scanText_append ha b
  have herror := congrArg Scan.error? hscan
  cases hb : (scanText b).error? with
  | some e =>
    rw [hb] at herror
    rw [ofText_of_error herror, ofText_of_error hb]
    refine ⟨fun _ hy => ?_, fun _ he => ?_⟩
    · cases hy
    · cases he
      rfl
  | none =>
    rw [hb] at herror
    rw [ofText_of_scanned herror, ofText_of_scanned hb, hscan]
    have hagree := declarationsFrom_moved (d := d) hmoved x.declarations
    rw [← ofWords_append hwords] at hagree
    generalize ofWords d (.ofTokens ((scanText a).items ++ ts)) = r at hagree ⊢
    generalize ofWords d (.ofTokens (scanText b).items) = r' at hagree ⊢
    refine ⟨fun y hy => ?_, fun e he => ?_⟩
    · cases hagree with
      | stuck => cases hy
      | read hds =>
        cases hy
        rw [hds]
    · cases hagree with
      | read => cases he
      | stuck hrest hexpected =>
        cases he
        rw [advance_append_feed]
        exact congrArg Except.error (stuck_error_shift hrest hexpected _)

/-- The first text ends in a line comment.  The second has a comment in front of its declaration,
or it ends too early. -/
theorem ofText_append_comment :
    ofText .native "typedef int A; // é" = .ok ⟨[.typeAlias ⟨⟨false, "int", 0⟩, "A"⟩,
      .comment "// é"]⟩ ∧
    ofText .native ("typedef int A; // é" ++ "\n" ++ "/**/ typedef A B;") =
      .ok ⟨[.typeAlias ⟨⟨false, "int", 0⟩, "A"⟩, .comment "// é", .comment "/**/",
        .typeAlias ⟨⟨false, "A", 0⟩, "B"⟩]⟩ ∧
    ofText .native ("typedef int A; // é" ++ "\n" ++ "typedef A") =
      .error (.grammar (.atEnd ⟨30, 2, 10⟩) .typedefName) := by
  have ha : ofText .native "typedef int A; // é" =
      .ok ⟨[.typeAlias ⟨⟨false, "int", 0⟩, "A"⟩, .comment "// é"]⟩ := by cbv
  have hread : ofText .native "/**/ typedef A B;" =
      .ok ⟨[.comment "/**/", .typeAlias ⟨⟨false, "A", 0⟩, "B"⟩]⟩ := by cbv
  have herror : ofText .native "typedef A" =
      .error (.grammar (.atEnd ⟨9, 1, 10⟩) .typedefName) := by cbv
  exact ⟨ha, (ofText_append .native _ _ ha).1 _ hread, (ofText_append .native _ _ ha).2 _ herror⟩

end Header

end EngineHeader
