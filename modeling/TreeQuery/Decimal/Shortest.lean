import TreeQuery.Decimal.Binary

/-!
# The shortest decimal that reads back

Every floating-point number stands for an interval of real numbers: those nearer to it than to
its neighbours. `shortest` looks for the decimal with the fewest digits in that interval, and of
several for the one nearest to the number. All comparisons are made between whole numbers.

If a decimal with `n` digits lies in the interval, then so does one of the two that enclose the
number, so no others have to be tried.
-/

namespace TreeQuery

/-- The number `coefficient · 10 ^ exponent`. -/
structure Decimal where
  coefficient : Nat
  exponent : Int
  deriving DecidableEq, Repr

namespace Decimal

/-- The fraction `num / den`. -/
structure Ratio where
  num : Nat
  den : Nat
  deriving DecidableEq, Repr

namespace Ratio

/-- The number `n · base ^ exponent`. -/
def scaled (n base : Nat) (exponent : Int) : Ratio :=
  ⟨n * Nat.pow base exponent.toNat, Nat.pow base (-exponent).toNat⟩

/-- The comparison of two fractions. -/
def compare (a b : Ratio) : Ordering :=
  Ord.compare (a.num * b.den) (b.num * a.den)

end Ratio

/-- A decimal as a fraction. -/
def ratio (d : Decimal) : Ratio := .scaled d.coefficient 10 d.exponent

/-- How many digits a number has. -/
def digitCount (n : Nat) : Nat := (Nat.toDigits 10 n).length

/-- The power of ten of the first digit of a positive number. -/
def leadingExponent (r : Ratio) : Int :=
  if r.den ≤ r.num then digitCount (r.num / r.den) - 1
  else
    let digits := digitCount (r.den / r.num)
    if r.num * Nat.pow 10 (digits - 1) = r.den then 1 - (digits : Int) else -digits

/-- The largest decimal with a given exponent that is not above a number. -/
def below (r : Ratio) (exponent : Int) : Decimal :=
  ⟨r.num * Nat.pow 10 (-exponent).toNat / (r.den * Nat.pow 10 exponent.toNat), exponent⟩

/-- The next decimal with the same exponent. -/
def next (d : Decimal) : Decimal := { d with coefficient := d.coefficient + 1 }

/-- What is done with a number halfway between two decimals. -/
inductive Tie where
  | up
  | toEven
  deriving DecidableEq, Repr

/-- The nearer to a number of a decimal below it and the next one. -/
def nearer (tie : Tie) (r : Ratio) (d : Decimal) : Decimal :=
  match (Ratio.scaled (2 * d.coefficient + 1) 10 d.exponent).compare ⟨2 * r.num, r.den⟩ with
  | .gt => d
  | .lt => d.next
  | .eq =>
    match tie with
    | .up => d.next
    | .toEven => if d.coefficient % 2 = 0 then d else d.next

/-! ## The interval of a floating-point number -/

/-- Whether a decimal lies in the interval of `mantissa · 2 ^ exponent`, which is measured in
quarters of the last bit. Below a power of two the numbers are twice as dense. The ends belong to
the interval if the mantissa is even. -/
def readsAs (mantissa : Nat) (exponent : Int) (d : Decimal) : Bool :=
  let dense := mantissa = Binary.impliedBit ∧ exponent ≠ Binary.leastExponent
  let low := Ratio.scaled (4 * mantissa - if dense then 1 else 2) 2 (exponent - 2)
  let high := Ratio.scaled (4 * mantissa + 2) 2 (exponent - 2)
  if mantissa % 2 = 0 then low.compare d.ratio != .gt && d.ratio.compare high != .gt
  else low.compare d.ratio == .lt && d.ratio.compare high == .lt

/-- A decimal of so many digits in the interval of `mantissa · 2 ^ exponent`, if there is one, and
of two the nearer. -/
def withDigits? (tie : Tie) (mantissa : Nat) (exponent : Int) (digits : Nat) : Option Decimal :=
  let r := Ratio.scaled mantissa 2 exponent
  let d := below r (leadingExponent r - digits + 1)
  match readsAs mantissa exponent d, readsAs mantissa exponent d.next with
  | true, true => some (nearer tie r d)
  | true, false => some d
  | false, true => some d.next
  | false, false => none

/-- Seventeen digits are always enough. -/
def digitLimit : Nat := 17

/-- The decimal with the fewest digits in the interval of `mantissa · 2 ^ exponent`. -/
def shortest (tie : Tie) (mantissa : Nat) (exponent : Int) : Decimal :=
  if mantissa = 0 then ⟨0, 0⟩
  else
    ((List.range digitLimit).findSome? fun n =>
      withDigits? tie mantissa exponent (n + 1)).getD ⟨0, 0⟩

/-- The decimal of so many digits that is nearest to `mantissa · 2 ^ exponent`. -/
def rounded (tie : Tie) (digits : Nat) (mantissa : Nat) (exponent : Int) : Decimal :=
  if mantissa = 0 then ⟨0, 0⟩
  else
    let r := Ratio.scaled mantissa 2 exponent
    nearer tie r (below r (leadingExponent r - digits + 1))

end Decimal

end TreeQuery
