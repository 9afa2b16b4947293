import EngineHeader.Directive.Fault

/-!
# Directives

The directives of a header form a tree.  A conditional block holds the directives
between its opening line and its closing line.  Everything else is a leaf: source
text, the definition of a name, or the inclusion of a file.  Names are only ever
tested for being defined, so a definition has no value.
-/

namespace EngineHeader

/-- A directive of a header. -/
inductive Directive where
  /-- Source text. -/
  | source (text : String)
  /-- The definition of a name. -/
  | define (name : String)
  /-- The inclusion of a file, in angle brackets or in quotes. -/
  | includeFile (name : String) (angled : Bool)
  /-- A conditional block. -/
  | block (condition : Directive.Condition) (name : String) (body : List Directive)
deriving Repr

end EngineHeader
