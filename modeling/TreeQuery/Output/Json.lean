import TreeQuery.Database.Rows

/-!
# Results as JSON

One line for a result: an object with the names of the columns and the rows as arrays. Numbers,
texts and missing values are JSON values of the same kind, bytes an array of numbers. No line
feed stands inside the line, since in texts it is written `\n`.

`json` is what `write_rows` does in this format, with the writer of JSON that it calls.
-/

namespace TreeQuery.Output

open Database

/-- A hexadecimal digit. -/
def hexDigit (n : Nat) : Char := Nat.digitChar n

/-- A character as it stands between the quotes. -/
def jsonChar (c : Char) : List Char :=
  match c with
  | '"' => ['\\', '"']
  | '\\' => ['\\', '\\']
  | '\n' => ['\\', 'n']
  | '\r' => ['\\', 'r']
  | '\t' => ['\\', 't']
  | '\x08' => ['\\', 'b']
  | '\x0c' => ['\\', 'f']
  | c =>
    if c.toNat < 0x20 then ['\\', 'u', '0', '0', hexDigit (c.toNat / 16), hexDigit (c.toNat % 16)]
    else [c]

/-- A text between quotes. -/
def jsonText (s : String) : List Char :=
  '"' :: (s.toList.flatMap jsonChar ++ ['"'])

/-- Written items in brackets, with commas between them. -/
def jsonArray (items : List (List Char)) : List Char :=
  '[' :: ((items.intersperse [',']).flatten ++ [']'])

/-- A whole number. -/
def jsonInteger (n : Int) : List Char := (toString n).toList

/-- Floating-point numbers are written with the fewest digits that read back. Exponents stand
where the number is not below `10 ^ 16` or is below `10 ^ -5`; a number without one has a point. -/
def jsonReal : Decimal.Format where
  isPlain := fun e => -5 ≤ e && e ≤ 15
  plainPoint := true

/-- A value. Infinite numbers have no JSON form and become `null`. -/
def jsonValue : Value → List Char
  | .null => "null".toList
  | .integer n => jsonInteger n.toInt
  | .real x => if x.isFinite then (jsonReal.text x).toList else "null".toList
  | .text s => jsonText s
  | .blob bytes => jsonArray (bytes.map fun b => jsonInteger b.toNat)

/-- A result without the line feed. -/
def jsonObject (r : Rows) : List Char :=
  "\x7b\"columns\":".toList ++ jsonArray (r.columns.map jsonText) ++ ",\"rows\":".toList ++
    jsonArray (r.rows.map fun row => jsonArray (row.map jsonValue)) ++ ['\x7d']

/-- A result as a line. -/
def json (r : Rows) : String := String.ofList (jsonObject r ++ ['\n'])

end TreeQuery.Output
