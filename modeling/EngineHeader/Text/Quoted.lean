import EngineHeader.Text.Shown

/-!
# Quoted text

How a message quotes a piece of its input.  The text stands in double quotes.
The quote and the backslash are written after a backslash, the null character,
the tab and the two line ends as the usual letters.  Every other character that
is not shown as itself becomes its code point in lower-case hexadecimal, without
leading zeros, between braces.
-/

namespace EngineHeader.Text

/-- How one character is written inside quotes. -/
def quoteChar (c : Char) : List Char :=
  match c with
  | '\x00' => ['\\', '0']
  | '\t' => ['\\', 't']
  | '\n' => ['\\', 'n']
  | '\r' => ['\\', 'r']
  | '"' => ['\\', '"']
  | '\\' => ['\\', '\\']
  | c => if isShown c then [c] else '\\' :: 'u' :: '\x7b' :: (Nat.toDigits 16 c.toNat ++ ['\x7d'])

/-- A text in quotes. -/
def quoted (text : String) : String :=
  String.ofList ('"' :: (text.toList.flatMap quoteChar ++ ['"']))

end EngineHeader.Text
