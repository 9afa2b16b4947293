import EngineHeader.Directive.Basic
import EngineHeader.Directive.Segment

/-!
# From segments to a tree

Each directive line is an *instruction*: nothing at all, a leaf, the opening of a
block or the closing of one.  A line that is none of these has a fault.

The tree is built from left to right.  A *builder* keeps the blocks that are
still open, innermost first, each with the directives it holds so far.  Closing a
block adds it to the block around it.  Closing where none is open is a fault,
also if the closing line has text behind it.  At the end no block may be open,
and otherwise the innermost is at fault.

The first fault counts, also against an error of the scan behind it.
-/

namespace EngineHeader.Directive

/-! ## Instructions -/

/-- What a directive line asks for. -/
inductive Instruction where
  /-- Nothing: the line has only its number sign. -/
  | nothing
  /-- A directive without a body. -/
  | leaf (directive : Directive)
  /-- The opening of a block. -/
  | enter (condition : Condition) (name : String)
  /-- The closing of a block.  `bare` says that nothing follows on the line. -/
  | leave (bare : Bool)
deriving Repr

/-- The name that a directive needs.  A word that begins with a digit is none. -/
def Line.nameFor (directive : Keyword) (l : Line) : Except Fault String :=
  match l.argument? with
  | some (.word name) =>
    if (name.toList.head?.map Char.isDigit).getD false then .error (.missingArgument directive)
    else .ok name
  | _ => .error (.missingArgument directive)

/-- A value, if nothing follows the argument of the directive. -/
def Line.complete {α : Type} (directive : Keyword) (l : Line) (a : α) : Except Fault α :=
  if l.rest = "" then .ok a else .error (.trailingText directive)

/-- The opening of a block. -/
def Line.opening (condition : Condition) (l : Line) : Except Fault Instruction := do
  let name ← l.nameFor condition.keyword
  l.complete condition.keyword (.enter condition name)

/-- What a directive line asks for.  What follows a defined name is its value,
and does not matter. -/
def Line.instruction (l : Line) : Except Fault Instruction :=
  if l.name = "" then
    if l.isBare then .ok .nothing else .error .missingName
  else
    match Keyword.ofText? l.name with
    | none => .error (.unsupported l.name)
    | some .endif => .ok (.leave l.isBare)
    | some .ifDefined => l.opening .defined
    | some .ifUndefined => l.opening .undefined
    | some .define => return .leaf (.define (← l.nameFor .define))
    | some .includeFile =>
      match l.argument? with
      | some (.angled name) => l.complete .includeFile (.leaf (.includeFile name true))
      | some (.quoted name) => l.complete .includeFile (.leaf (.includeFile name false))
      | _ => .error (.missingArgument .includeFile)

/-! ## Building -/

/-- A block that is still open. -/
structure OpenBlock where
  /-- Where its opening line begins. -/
  position : Position
  /-- What it asks. -/
  condition : Condition
  /-- The name it asks about. -/
  name : String
  /-- The directives it holds so far, latest first. -/
  body : List Directive
deriving Repr

/-- A block that is closed. -/
def OpenBlock.close (b : OpenBlock) : Directive := .block b.condition b.name b.body.reverse

/-- The part of a tree that has been read. -/
structure Builder where
  /-- The blocks that are still open, innermost first. -/
  blocks : List OpenBlock
  /-- The directives outside of any block, latest first. -/
  outside : List Directive
deriving Repr

namespace Builder

/-- Nothing has been read. -/
def empty : Builder := ⟨[], []⟩

/-- Add a directive to the innermost open block. -/
def add (b : Builder) (d : Directive) : Builder :=
  match b.blocks with
  | [] => ⟨[], d :: b.outside⟩
  | inner :: outer => ⟨{ inner with body := d :: inner.body } :: outer, b.outside⟩

/-- Follow an instruction whose line begins at `p`. -/
def follow (b : Builder) (p : Position) : Instruction → Except Fault Builder
  | .nothing => .ok b
  | .leaf d => .ok (b.add d)
  | .enter condition name => .ok ⟨⟨p, condition, name, []⟩ :: b.blocks, b.outside⟩
  | .leave bare =>
    match b.blocks with
    | [] => .error .unmatchedEndif
    | inner :: outer =>
      if bare then .ok (Builder.add ⟨outer, b.outside⟩ inner.close)
      else .error (.trailingText .endif)

/-- Read one more segment. -/
def step (b : Builder) (s : Segment) : Except Error Builder :=
  match s.content with
  | .source text => .ok (b.add (.source text))
  | .line l => (l.instruction >>= b.follow s.position).mapError (.directive s.position)

/-- The tree, if no block is open. -/
def finish (b : Builder) : Except Error (List Directive) :=
  match b.blocks with
  | [] => .ok b.outside.reverse
  | inner :: _ => .error (.directive inner.position (.unterminated inner.condition inner.name))

end Builder

/-- The tree of the segments that a scan found. -/
def ofScan (s : Scan Segment) : Except Error (List Directive) := do
  let b ← s.items.foldlM Builder.step Builder.empty
  match s.error? with
  | some e => .error e
  | none => b.finish

/-- The directives of a header. -/
def ofText (source : String) : Except Error (List Directive) := ofScan (Segment.scanText source)

end EngineHeader.Directive
