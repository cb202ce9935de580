import TreeQuery.Database.Numeral
import TreeQuery.Text.Utf8

/-!
# Values taken as other values

Where an operator wants a number, a whole number, a text or a truth value, a value of another
kind is taken as one.

No function of the program is behind this module: it is part of what stands for the engine
(`Engine.ofTables`).
-/

namespace TreeQuery.Database

/-- As text a floating-point number has fifteen digits, always with a point. -/
def realText : Decimal.Format where
  digits? := some 15
  tie := .up
  isPlain := fun e => -4 ≤ e && e ≤ 14
  plainPoint := true
  exponentPoint := true
  exponentWidth := 2
  signedZero := false
  infinity := "Inf"

namespace Value

/-- A value taken as text. -/
def toText? : Value → Option String
  | null => none
  | integer n => some (toString n)
  | real x => some (realText.text x)
  | text s => some s
  | blob bytes => some (Text.decodeLossy bytes)

/-- The characters of a value taken as text. -/
def chars (v : Value) : List Char := (v.toText?.getD "").toList

/-- A value taken as a number, by the number in front if it is a text. -/
def toNumber : Value → Value
  | null => null
  | integer n => integer n
  | real x => real x
  | v => (Numeral.read v.chars).value

/-- A value taken as a floating-point number. -/
def toReal : Value → Float
  | null => 0
  | integer n => n.toFloat
  | real x => x
  | v => (Numeral.read v.chars).toReal

/-- A value taken as a whole number; fractions are cut off. -/
def toInteger : Value → Int64
  | null => 0
  | integer n => n
  | real x => x.toInt64
  | v => leadingInteger v.chars

/-- A value taken as a truth value; no value is neither. -/
def truth? : Value → Option Bool
  | null => none
  | integer n => some (n != 0)
  | v => some (v.toReal != 0)

/-- A text that is all number taken as that number, any other value as it is. -/
def asNumeric : Value → Value
  | text s =>
    let n := Numeral.read s.toList
    if n.complete then n.value else text s
  | v => v

/-- A number taken as text, any other value as it is. -/
def asText : Value → Value
  | integer n => text (toString n)
  | real x => text (realText.text x)
  | v => v

/-- The whole number that a value is without loss. -/
def exactInteger? (v : Value) : Option Int64 :=
  match v.asNumeric with
  | integer n => some n
  | real x =>
    let n := x.toInt64
    if n.toFloat == x && n != .minValue && n != .maxValue then some n else none
  | _ => none

end Value

/-- A truth value that may be missing. -/
def ofTruth (b? : Option Bool) : Value := (b?.map Value.ofBool).getD .null

end TreeQuery.Database
