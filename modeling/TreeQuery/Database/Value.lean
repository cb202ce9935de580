import TreeQuery.Decimal.Format

/-!
# Values of the database

A cell of a row holds nothing, a whole number of 64 bits, a floating-point number, a text or
bytes.

`Value` is the type of this name: `isNull`, `integer?`, `real?`, `text?` and `display` are its
`is_null`, `as_i64`, `as_f64`, `as_str` and `fmt`.
-/

namespace TreeQuery.Database

/-- What a cell of a row holds. -/
inductive Value where
  | null
  | integer (n : Int64)
  | real (x : Float)
  | text (s : String)
  | blob (bytes : List UInt8)
  deriving BEq, Repr, Inhabited

/-- Floating-point numbers are shown with the fewest digits that read back, a tie going up, and
never with an exponent. -/
def realDisplay : Decimal.Format where
  tie := .up
  isPlain := fun _ => true
  plainPoint := false

namespace Value

/-- Whether there is no value. -/
def isNull : Value → Bool
  | null => true
  | _ => false

/-- The whole number that a value is. -/
def integer? : Value → Option Int64
  | integer n => some n
  | _ => none

/-- The number that a value is, as a floating-point number. -/
def real? : Value → Option Float
  | integer n => some n.toFloat
  | real x => some x
  | _ => none

/-- The text that a value is. -/
def text? : Value → Option String
  | text s => some s
  | _ => none

/-- The value as a reader is shown it; of bytes only their number is shown. -/
def display : Value → String
  | null => "NULL"
  | integer n => toString n
  | real x => realDisplay.text x
  | text s => s
  | blob bytes => s!"<{bytes.length} bytes>"

/-- A floating-point result; what is no number is no value. -/
def ofReal (x : Float) : Value := if x.isNaN then null else real x

/-- A truth value. -/
def ofBool (b : Bool) : Value := integer (if b then 1 else 0)

end Value

end TreeQuery.Database
