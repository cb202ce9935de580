import TreeQuery.Text.Printable

/-!
# Texts in messages

A message shows a text between double quotes, so that its ends can be seen. Quotes and backslashes
get a backslash, and characters that do not print are written by their names or numbers.

Messages of `visit`, `register` and `finish` write texts so.
-/

namespace TreeQuery.Text

/-- The number of a character in hexadecimal digits. -/
def hexNumber (c : Char) : List Char := Nat.toDigits 16 c.toNat

/-- A character as it stands between the quotes. -/
def escapeChar (c : Char) : List Char :=
  match c with
  | '"' => ['\\', '"']
  | '\\' => ['\\', '\\']
  | '\n' => ['\\', 'n']
  | '\t' => ['\\', 't']
  | '\r' => ['\\', 'r']
  | '\x00' => ['\\', '0']
  | c => if isPrintable c then [c] else ['\\', 'u', '\x7b'] ++ hexNumber c ++ ['\x7d']

/-- A text between double quotes. -/
def escaped (text : String) : String :=
  String.ofList ('"' :: (text.toList.flatMap escapeChar ++ ['"']))

/-- Texts between double quotes, in brackets. -/
def escapedList (texts : List String) : String :=
  "[" ++ ", ".intercalate (texts.map escaped) ++ "]"

end TreeQuery.Text
