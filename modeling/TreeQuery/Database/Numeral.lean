import TreeQuery.Database.Value
import TreeQuery.Decimal.Reading

/-!
# Numbers in texts

A text is read as a number from its front: space, a sign, digits, a point, more digits and an
exponent, each of which may be missing. `Numeral.read` says what number stands there, whether a
point or an exponent belongs to it, and whether anything but space comes after it.

No function of the program is behind this module: it is part of what stands for the engine
(`Engine.ofTables`).
-/

namespace TreeQuery.Database

/-- The number in front of a text. -/
structure Numeral where
  negative : Bool := false
  /-- The digits before and after the point as one number. -/
  coefficient : Nat := 0
  /-- The power of ten that the coefficient is multiplied by. -/
  exponent : Int := 0
  /-- Whether a point or an exponent belongs to the number. -/
  fractional : Bool := false
  /-- Whether the number is all of the text, space around it apart. -/
  complete : Bool := false
  deriving DecidableEq, Repr

/-- Space around a number. -/
def isNumberSpace (c : Char) : Bool :=
  c == ' ' || (0x09 ≤ c.toNat && c.toNat ≤ 0x0D)

/-- The number that a row of digits is. -/
def digitsValue (digits : List Char) : Nat :=
  digits.foldl (fun n d => 10 * n + (d.toNat - 48)) 0

/-- Whether a sign in front says minus, and what comes after it. -/
def splitSign : List Char → Bool × List Char
  | '-' :: cs => (true, cs)
  | '+' :: cs => (false, cs)
  | cs => (false, cs)

/-- An exponent in front, and what comes after it. -/
def splitExponent : List Char → Option (Int × List Char)
  | [] => none
  | e :: cs =>
    if e = 'e' ∨ e = 'E' then
      let (negative, rest) := splitSign cs
      match rest.takeWhile Char.isDigit with
      | [] => none
      | digits =>
        let n : Int := digitsValue digits
        some (if negative then -n else n, rest.drop digits.length)
    else none

namespace Numeral

/-- The number in front of some characters, which starts with its digits. Without any digit it is
zero. -/
def readUnsigned (negative : Bool) (cs : List Char) : Numeral :=
  let whole := cs.takeWhile Char.isDigit
  let rest := cs.drop whole.length
  let (point, fraction, rest) := match rest with
    | '.' :: cs => (true, cs.takeWhile Char.isDigit, cs.dropWhile Char.isDigit)
    | cs => (false, [], cs)
  if whole.isEmpty && fraction.isEmpty then { negative }
  else
    let (exponent?, rest) := match splitExponent rest with
      | some (e, rest) => (some e, rest)
      | none => (none, rest)
    { negative
      coefficient := digitsValue (whole ++ fraction)
      exponent := exponent?.getD 0 - fraction.length
      fractional := point || exponent?.isSome
      complete := rest.all isNumberSpace }

/-- The number in front of some characters. -/
def read (cs : List Char) : Numeral :=
  let (negative, rest) := splitSign (cs.dropWhile isNumberSpace)
  readUnsigned negative rest

/-- The number as a floating-point number. -/
def toReal (n : Numeral) : Float :=
  let x := Decimal.toFloat n.coefficient n.exponent
  if n.negative then -x else x

/-- The whole number before a point or an exponent. -/
def whole (n : Numeral) : Int :=
  if n.negative then -n.coefficient else n.coefficient

/-- The number as a value: whole if it is written so and is not too large. -/
def value (n : Numeral) : Value :=
  if n.fractional then .ofReal n.toReal
  else if Int64.minValue.toInt ≤ n.whole ∧ n.whole ≤ Int64.maxValue.toInt then
    .integer (.ofInt n.whole)
  else .ofReal n.toReal

end Numeral

/-- The whole number nearest to a number that a cell can hold. -/
def saturate (n : Int) : Int64 :=
  if n < Int64.minValue.toInt then .minValue
  else if Int64.maxValue.toInt < n then .maxValue
  else .ofInt n

/-- The whole number in front of a text, as a cell can hold it. -/
def leadingInteger (cs : List Char) : Int64 :=
  let (negative, rest) := splitSign (cs.dropWhile isNumberSpace)
  let n : Int := digitsValue (rest.takeWhile Char.isDigit)
  saturate (if negative then -n else n)

end TreeQuery.Database
