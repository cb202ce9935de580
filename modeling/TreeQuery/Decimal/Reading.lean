/-!
# Reading decimals

The floating-point number nearest to a decimal. Numbers too large become infinite and numbers too
small zero, without the power of ten being worked out.
-/

namespace TreeQuery.Decimal

/-- From this power of ten on every number is infinite. -/
def hugeExponent : Int := 310

/-- Below this power of ten every number is zero. -/
def tinyExponent : Int := -330

/-- The floating-point number nearest to `coefficient · 10 ^ exponent`. -/
def toFloat (coefficient : Nat) (exponent : Int) : Float :=
  let last := exponent + (Nat.toDigits 10 coefficient).length
  if coefficient = 0 ∨ last < tinyExponent then 0
  else if hugeExponent < last then 1.0 / 0.0
  else Float.ofScientific coefficient (exponent < 0) exponent.natAbs

end TreeQuery.Decimal
