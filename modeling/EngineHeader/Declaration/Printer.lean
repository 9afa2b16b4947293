import EngineHeader.Declaration.Basic

/-!
# Declarations as text

How types, arguments and function pointers are written in C.  A space stands
between a name and its stars, and between a type without stars and the name that
it is given to.
-/

namespace EngineHeader.Declaration

namespace BaseType

/-- A type, as it is written where nothing is declared with it. -/
def text (t : BaseType) : String :=
  (if t.isConst then "const " else "") ++ t.name ++
    (if t.isPointer then " " ++ String.ofList (List.replicate t.indirection '*') else "")

/-- The declaration of a name with a type. -/
def declare (t : BaseType) (name : String) : String :=
  if t.isPointer then t.text ++ name else t.text ++ " " ++ name

end BaseType

/-- The declaration of a function pointer, from the texts of its arguments. -/
def pointerText (returns : BaseType) (name : String) (arguments : List String) : String :=
  returns.text ++ " (*" ++ name ++ ")(" ++ String.intercalate ", " arguments ++ ")"

mutual

/-- An argument, as it is written in a list of arguments. -/
def Argument.text : Argument → String
  | .plain type none => type.text
  | .plain type (some name) => type.declare name
  | .callback returns name? arguments =>
    pointerText returns (name?.getD "") (argumentTexts arguments)

/-- Each of a list of arguments, as it is written there. -/
def argumentTexts : List Argument → List String
  | [] => []
  | a :: arguments => a.text :: argumentTexts arguments

end

namespace Argument

/-- The type of an argument, which is the argument without its name. -/
def typeText (a : Argument) : String := (a.withName none).text

/-- The name of an argument, or one made from its index. -/
def resolvedName (a : Argument) (index : Nat) : String :=
  a.name?.getD ("arg_" ++ toString index)

/-- The declaration of an argument, which names it even where the header does
not. -/
def declaration (a : Argument) (index : Nat) : String :=
  match a with
  | .plain type _ => type.declare (a.resolvedName index)
  | .callback returns _ arguments =>
    pointerText returns (a.resolvedName index) (argumentTexts arguments)

/-- Whether what an argument points at has to stay in its place during a call.
Text and callbacks need not. -/
def isPinnable : Argument → Bool
  | .plain type _ => type.name != "char" && type.isPointer
  | .callback _ _ _ => false

end Argument

/-- A typedef of a function pointer. -/
def Signature.text (s : Signature) : String :=
  "typedef " ++ pointerText s.returns s.name (argumentTexts s.arguments) ++ ";"

/-! ## Tests -/

example : (Argument.plain ⟨true, "char", 1⟩ (some "p_contents")).text = "const char *p_contents" := by
  decide

example :
    (Argument.callback ⟨false, "void", 0⟩ (some "p_func")
      [.plain ⟨false, "void", 1⟩ none]).typeText = "void (*)(void *)" := by
  decide

example :
    (Argument.callback ⟨false, "void", 0⟩ none
      [.plain ⟨false, "void", 1⟩ none]).declaration 1 = "void (*arg_1)(void *)" := by
  decide

end EngineHeader.Declaration
