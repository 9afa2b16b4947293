import EngineHeader.Proofs.Directive.Again
import EngineHeader.Proofs.Token.OpenComment

/-!
# Headers that leave a comment open

A block comment that is never closed is an error, wherever it stands in front of a declaration
or in source text (`read_of_leavesOpen`).  In front of a segment the directive stage finds it.
In source text it comes through to the flat text, since flattening drops nothing behind the
last span, and then the declaration lexer finds it.

There is one place where nobody looks.  A comment that is left open on a directive line is the
end of that line, and the line is the last segment.  So what stands behind such a comment is
lost without an error (`read_open_line`).
-/

namespace EngineHeader.Header

open Text Directive

/-- A text that leaves a comment open is not read as a header. -/
theorem exists_error_of_leavesOpen (d : Dialect) {text : String}
    (h : leavesOpen text.toList = true) : ∃ e, ofText d text = .error e := by
  obtain ⟨e, he⟩ := Option.ne_none_iff_exists'.mp (Token.error_of_leavesOpen h)
  refine ⟨e, ?_⟩
  rw [ofText, Scan.toExcept, he]
  rfl

/-- A header that leaves a comment open is an error, unless its last segment is a directive
line and leaves the comment open. -/
theorem read_of_leavesOpen (c : Config) (source : String)
    (h : leavesOpen source.toList = true) :
    (∃ e, read c source = .error e) ∨ EndsInOpenLine source := by
  rw [read]
  cases hflatten : flatten source c.names with
  | error e => exact .inl ⟨e, rfl⟩
  | ok text =>
    obtain ⟨leftOpen, hflat, hopen⟩ := flat_flatten hflatten
    rcases hopen h with rfl | hline
    · exact .inl (exists_error_of_leavesOpen c.dialect hflat.comments)
    · exact .inr hline

/-- A comment that is left open in source text, behind a directive line that closes one. -/
theorem read_of_leavesOpen_source :
    leavesOpen "#define A /* a */\ntypedef int /* b".toList = true ∧
      ¬ EndsInOpenLine "#define A /* a */\ntypedef int /* b" ∧
      ∃ e, read default "#define A /* a */\ntypedef int /* b" = .error e := by
  have hopen : leavesOpen "#define A /* a */\ntypedef int /* b".toList = true := by decide
  have hlast : (Segment.scanText "#define A /* a */\ntypedef int /* b").items.getLast? =
      some ⟨.source "typedef int /* b", ⟨18, 2, 1⟩⟩ := by cbv
  have hsource : ¬ EndsInOpenLine "#define A /* a */\ntypedef int /* b" := by
    rintro ⟨_, _, _, _, hline⟩
    rw [hlast] at hline
    cases hline
  exact ⟨hopen, hsource, (read_of_leavesOpen default _ hopen).resolve_right hsource⟩

/-- A comment that is left open on a directive line hides a declaration, and is no error. -/
theorem read_open_line :
    leavesOpen "#define A /* note\ntypedef int B;\n".toList = true ∧
      read default "#define A /* note\ntypedef int B;\n" = .ok ⟨[]⟩ := by
  constructor
  · decide
  · cbv

end EngineHeader.Header
