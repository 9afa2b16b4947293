import EngineHeader.Config.Reader
import EngineHeader.Declaration.Encode
import EngineHeader.Header

/-!
# The command line

The program prints the declarations of one header as JSON.  Its arguments are

* the header, or a lone hyphen for the standard input, which is also meant if
  there is none;
* `--config` with a file that holds a configuration;
* `--dialect` with the name of a dialect;
* `--cplusplus`;
* `-D` with a name to define, as often as needed.

The value of a long option follows it as the next argument, or behind an equals
sign.  The value of `-D` may also follow without anything in between.  A next
argument that begins with a hyphen is no value, unless it is the hyphen alone.
Behind two hyphens there are no options.  Apart from `-D` nothing may be given
twice.

The options are applied on top of the configuration: the dialect replaces the one
there, and everything else is added.  The configuration is read first, then the
header.
-/

namespace EngineHeader.CommandLine

/-! ## Arguments -/

/-- What an argument is. -/
inductive Argument where
  /-- The header. -/
  | header
  /-- The end of the options. -/
  | endOfOptions
  /-- A name to define, unless it is the next argument. -/
  | define (value? : Option String)
  /-- A long option, and the value behind its equals sign. -/
  | long (name : String) (value? : Option String)
  /-- An option that is not known. -/
  | unknown
deriving DecidableEq, Repr

/-- A long option, from the text behind its hyphens. -/
def Argument.ofLong (text : List Char) : Argument :=
  let name := String.ofList (text.takeWhile (· != '='))
  match text.dropWhile (· != '=') with
  | [] => .long name none
  | _ :: value => .long name (some (String.ofList value))

/-- What an argument is, by its spelling. -/
def Argument.ofText (text : String) : Argument :=
  match text.toList with
  | ['-', '-'] => .endOfOptions
  | '-' :: '-' :: option => .ofLong option
  | ['-'] => .header
  | ['-', 'D'] => .define none
  | '-' :: 'D' :: '=' :: value => .define (some (String.ofList value))
  | '-' :: 'D' :: value => .define (some (String.ofList value))
  | '-' :: _ => .unknown
  | _ => .header

/-- An argument that can be the value of the option in front of it. -/
def isValue (text : String) : Bool := Argument.ofText text = .header

/-! ## Options -/

/-- What the arguments ask for. -/
structure Options where
  /-- The header, as given. -/
  header? : Option String
  /-- The file of the configuration. -/
  config? : Option String
  /-- The dialect. -/
  dialect? : Option Dialect
  /-- C++ is meant. -/
  cplusplus : Bool
  /-- Names to define, in order. -/
  defines : List String
deriving DecidableEq, Repr

namespace Options

/-- Nothing was given. -/
def empty : Options := ⟨none, none, none, false, []⟩

/-- A value for an option that must not have one yet. -/
def once {α : Type} (old : Option α) (value : α) : Option (Option α) :=
  if old.isSome then none else some (some value)

/-- A name of a file, which is not empty. -/
def fileName (name : String) : Option String := if name = "" then none else some name

/-- Add the header. -/
def addHeader (o : Options) (name : String) : Option Options := do
  return { o with header? := ← once o.header? (← fileName name) }

/-- Add a name to define. -/
def addDefine (o : Options) (name : String) : Options := { o with defines := o.defines ++ [name] }

/-- Add a long option that has a value. -/
def addLong (o : Options) (option value : String) : Option Options := do
  if option = "config" then
    return { o with config? := ← once o.config? (← fileName value) }
  else if option = "dialect" then
    return { o with dialect? := ← once o.dialect? (← Dialect.ofName? value) }
  else none

/-- Add arguments none of which is an option. -/
def addHeaders (o : Options) (arguments : List String) : Option Options :=
  arguments.foldlM addHeader o

/-- Add arguments.  There is no result if they are used wrongly. -/
def add (o : Options) : List String → Option Options
  | [] => some o
  | argument :: arguments =>
    match Argument.ofText argument with
    | .endOfOptions => o.addHeaders arguments
    | .header => do (← o.addHeader argument).add arguments
    | .define (some name) => (o.addDefine name).add arguments
    | .define none =>
      match arguments with
      | [] => none
      | name :: arguments =>
        if isValue name then (o.addDefine name).add arguments else none
    | .long option (some value) => do (← o.addLong option value).add arguments
    | .long option none =>
      if option = "cplusplus" then
        if o.cplusplus then none else { o with cplusplus := true }.add arguments
      else
        match arguments with
        | [] => none
        | value :: arguments =>
          if isValue value then do (← o.addLong option value).add arguments else none
    | .unknown => none

/-- The options of a command line. -/
def ofArguments (arguments : List String) : Option Options := empty.add arguments

/-! ## Files -/

/-- The file that the header is in, unless it is the standard input. -/
def headerFile? (o : Options) : Option String := o.header?.filter (· != "-")

/-- The files that are read, in order. -/
def files (o : Options) : List String := o.config?.toList ++ o.headerFile?.toList

/-- The configuration in a file, or the default where no file is given. -/
def baseConfig (o : Options) (file : String → Option String) : Except String Config :=
  match o.config? with
  | none => .ok default
  | some name =>
    match file name with
    | none => .error ("reading " ++ name)
    | some text =>
      match Config.ofText text with
      | .ok c => .ok c
      | .error _ => .error ("parsing " ++ name)

/-- The options on top of a configuration. -/
def applyTo (o : Options) (c : Config) : Config :=
  ⟨o.dialect?.getD c.dialect, c.cplusplus || o.cplusplus, c.defines ++ o.defines⟩

/-- The name of the header and its text. -/
def source (o : Options) (file : String → Option String) (stdin : String) :
    Except String (String × String) :=
  match o.headerFile? with
  | none => .ok ("<stdin>", stdin)
  | some name =>
    match file name with
    | none => .error ("reading " ++ name)
    | some text => .ok (name, text)

/-- What is printed, or what went wrong. -/
def execute (o : Options) (file : String → Option String) (stdin : String) :
    Except String String := do
  let config := o.applyTo (← o.baseConfig file)
  let (name, source) ← o.source file stdin
  match Header.read config source with
  | .ok header => return header.toJson.pretty ++ "\n"
  | .error e => throw (name ++ ":" ++ e.message)

end Options

/-! ## Runs -/

/-- How a run ends. -/
inductive Outcome where
  /-- With output. -/
  | success (output : String)
  /-- With an error. -/
  | failure (message : String)
  /-- With arguments that are used wrongly. -/
  | misuse
deriving DecidableEq, Repr

/-- The exit code of a run. -/
def Outcome.exitCode : Outcome → Nat
  | .success _ => 0
  | .failure _ => 1
  | .misuse => 2

/-- Run the program on its arguments, the files it may read and its standard
input. -/
def run (arguments : List String) (file : String → Option String) (stdin : String) : Outcome :=
  match Options.ofArguments arguments with
  | none => .misuse
  | some o =>
    match o.execute file stdin with
    | .ok output => .success output
    | .error message => .failure ("Error: " ++ message)

end EngineHeader.CommandLine
