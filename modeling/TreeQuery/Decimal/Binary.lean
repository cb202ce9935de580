/-!
# The bits of a floating-point number

A finite floating-point number is a whole number times a power of two. `Binary.ofBits` reads both
off the 64 bits: one for the sign, eleven for the exponent and 52 for the fraction.
-/

namespace TreeQuery.Decimal

/-- What 64 bits say. -/
inductive Binary where
  | nan
  | infinite (negative : Bool)
  /-- The number `mantissa · 2 ^ exponent` with its sign. -/
  | finite (negative : Bool) (mantissa : Nat) (exponent : Int)
  deriving DecidableEq, Repr

namespace Binary

/-- The bit before the fraction. It is not stored: only numbers with the least exponent lack it. -/
def impliedBit : Nat := 0x10000000000000

/-- The exponent of the numbers nearest to zero. -/
def leastExponent : Int := -1074

/-- The number that 64 bits say. -/
def ofBits (bits : UInt64) : Binary :=
  let negative := bits >>> 63 == 1
  let stored := (bits >>> 52 &&& 0x7FF).toNat
  let fraction := (bits &&& 0xFFFFFFFFFFFFF).toNat
  if stored = 2047 then if fraction = 0 then infinite negative else nan
  else if stored = 0 then finite negative fraction leastExponent
  else finite negative (impliedBit + fraction) (leastExponent + stored - 1)

/-- The number that a floating-point number is. -/
def ofFloat (x : Float) : Binary := ofBits x.toBits

end Binary

end TreeQuery.Decimal
