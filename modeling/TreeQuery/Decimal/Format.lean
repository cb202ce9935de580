import TreeQuery.Decimal.Shortest

/-!
# Writing numbers

A `Format` says how a floating-point number is written: with how many digits, which powers of ten
are written out in zeros, and how an exponent looks. The formats themselves stand with the
outputs that use them.
-/

namespace TreeQuery.Decimal

/-- How floating-point numbers are written. -/
structure Format where
  /-- How many digits a number gets, or as few as read back. -/
  digits? : Option Nat := none
  /-- What is done with a number halfway between two decimals. -/
  tie : Tie := .toEven
  /-- Which powers of ten of the first digit are written without an exponent. -/
  isPlain : Int → Bool
  /-- Whether a whole number ends in `.0` where it is written without an exponent. -/
  plainPoint : Bool
  /-- Whether a single digit before an exponent is followed by `.0`. -/
  exponentPoint : Bool := false
  /-- The least number of digits of an exponent. -/
  exponentWidth : Nat := 1
  /-- Whether the sign of a negative zero is written. -/
  signedZero : Bool := true
  nan : String := "NaN"
  infinity : String := "inf"

/-- The digits of a number, the zeros at its end left out unless there is nothing else. -/
def significant (n : Nat) : List Char :=
  match ((Nat.toDigits 10 n).reverse.dropWhile (· == '0')).reverse with
  | [] => ['0']
  | digits => digits

/-- A row of zeros. -/
def zeros (n : Nat) : List Char := List.replicate n '0'

/-- The power of ten of the first digit of a decimal. -/
def firstExponent (d : Decimal) : Int :=
  if d.coefficient = 0 then 0 else d.exponent + digitCount d.coefficient - 1

/-- The digits of a number with a point behind as many as `first`, the power of ten of the first
of them, says. -/
def plainText (point : Bool) (digits : List Char) (first : Int) : List Char :=
  if first < 0 then '0' :: '.' :: zeros (-first - 1).toNat ++ digits
  else
    let whole := first.toNat + 1
    if whole < digits.length then digits.take whole ++ '.' :: digits.drop whole
    else digits ++ zeros (whole - digits.length) ++ (if point then ['.', '0'] else [])

/-- The digits of a number with a point behind the first of them. -/
def coefficientText (point : Bool) : List Char → List Char
  | [] => []
  | [d] => d :: (if point then ['.', '0'] else [])
  | d :: ds => d :: '.' :: ds

/-- An exponent with its sign. -/
def exponentText (width : Nat) (e : Int) : List Char :=
  let digits := Nat.toDigits 10 e.natAbs
  'e' :: (if e < 0 then '-' else '+') :: zeros (width - digits.length) ++ digits

namespace Format

/-- The decimal that stands for `mantissa · 2 ^ exponent`. -/
def choose (f : Format) (mantissa : Nat) (exponent : Int) : Decimal :=
  match f.digits? with
  | some digits => rounded f.tie digits mantissa exponent
  | none => shortest f.tie mantissa exponent

/-- A decimal in this format. -/
def unsigned (f : Format) (d : Decimal) : List Char :=
  let digits := significant d.coefficient
  let first := d.firstExponent
  if f.isPlain first then plainText f.plainPoint digits first
  else coefficientText f.exponentPoint digits ++ exponentText f.exponentWidth first

/-- A floating-point number in this format. -/
def text (f : Format) (x : Float) : String :=
  match Binary.ofFloat x with
  | .nan => f.nan
  | .infinite negative => (if negative then "-" else "") ++ f.infinity
  | .finite negative mantissa exponent =>
    let sign := negative && (f.signedZero || mantissa != 0)
    (if sign then "-" else "") ++ String.ofList (f.unsigned (f.choose mantissa exponent))

end Format

end TreeQuery.Decimal
