/-!
# Declarations

What a header declares.  A declaration is a typedef: of an enumeration, of another
name for a type, of a function pointer or of a structure.  The comments that
stand between declarations are kept with them.

A *base type* is a name with an optional `const` and some stars.  An argument has
a base type, or it is a *callback*, a function pointer with arguments of its own.
The *signature* of a function pointer is what it returns, its name and its
arguments.
-/

namespace EngineHeader.Declaration

/-- A name of a type, perhaps constant, behind some pointers. -/
structure BaseType where
  /-- The type is marked as constant. -/
  isConst : Bool
  /-- Its name. -/
  name : String
  /-- How many stars follow the name. -/
  indirection : Nat
deriving DecidableEq, Repr

/-- A type with at least one star. -/
def BaseType.isPointer (t : BaseType) : Bool := 0 < t.indirection

/-- An argument of a function pointer. -/
inductive Argument where
  /-- An argument of a base type. -/
  | plain (type : BaseType) (name? : Option String)
  /-- An argument that is a function pointer itself. -/
  | callback (returns : BaseType) (name? : Option String) (arguments : List Argument)
deriving Repr

/-- The name of an argument, if it has one. -/
def Argument.name? : Argument → Option String
  | .plain _ name? => name?
  | .callback _ name? _ => name?

/-- The argument with another name, or with none. -/
def Argument.withName (name? : Option String) : Argument → Argument
  | .plain type _ => .plain type name?
  | .callback returns _ arguments => .callback returns name? arguments

/-- A function pointer: what it returns, its name and its arguments. -/
structure Signature where
  /-- What it returns. -/
  returns : BaseType
  /-- Its name. -/
  name : String
  /-- Its arguments, in order. -/
  arguments : List Argument
deriving Repr

/-- What an enumerator is set to. -/
inductive Initializer where
  /-- Nothing is written. -/
  | implicit
  /-- A number. -/
  | integer (value : Int)
  /-- Another enumerator, which is not looked up. -/
  | reference (name : String)
deriving DecidableEq, Repr

/-- A name of an enumeration. -/
structure Enumerator where
  /-- The name. -/
  name : String
  /-- What it is set to. -/
  value : Initializer
deriving DecidableEq, Repr

/-- An enumeration, which may be anonymous. -/
structure Enumeration where
  /-- Its enumerators, in order. -/
  values : List Enumerator
  /-- Its name, if it has one. -/
  name? : Option String
deriving DecidableEq, Repr

/-- Another name for a base type. -/
structure TypeAlias where
  /-- The type. -/
  type : BaseType
  /-- Its other name. -/
  name : String
deriving DecidableEq, Repr

/-- A field of a structure. -/
inductive Field where
  /-- A field of a base type. -/
  | plain (type : BaseType) (name : String)
  /-- A function pointer, with the comment that goes with it. -/
  | function (signature : Signature) (comment? : Option String)
deriving Repr

/-- A structure. -/
structure Struct where
  /-- Its name. -/
  name : String
  /-- Its fields, in order. -/
  fields : List Field
deriving Repr

end Declaration

/-- A declaration of a header, or a comment between two of them. -/
inductive Declaration where
  /-- A comment, with its delimiters. -/
  | comment (text : String)
  | enumeration (enumeration : Declaration.Enumeration)
  | typeAlias (typeAlias : Declaration.TypeAlias)
  | function (signature : Declaration.Signature)
  | struct (struct : Declaration.Struct)
deriving Repr

/-- The name that a declaration introduces.  Comments and anonymous enumerations
have none. -/
def Declaration.name? : Declaration → Option String
  | .comment _ => none
  | .enumeration e => e.name?
  | .typeAlias a => some a.name
  | .function f => some f.name
  | .struct s => some s.name

/-- A header: its declarations and the comments between them, in order. -/
structure Header where
  /-- The declarations. -/
  declarations : List Declaration
deriving Repr

end EngineHeader
