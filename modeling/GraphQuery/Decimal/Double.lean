import GraphQuery.Decimal.Shortest

/-!
# Doubles

A floating-point number of 64 bits, told apart from another by its bits: the two zeros differ, and a
number that is not one equals itself.
-/

namespace GraphQuery

/-- A floating-point number of 64 bits, held as these bits. -/
structure Double where
  /-- Sign, eleven bits of exponent and fifty-two bits of fraction, from the highest bit down. -/
  bits : UInt64
  deriving Repr, DecidableEq

namespace Double

def negative (x : Double) : Bool := x.bits >>> 63 = 1

/-- The exponent field: zero for zeros and subnormal numbers, 2047 for infinities and no number. -/
def exponentField (x : Double) : Nat := (x.bits >>> 52 &&& 0x7ff).toNat

def fraction (x : Double) : Nat := (x.bits &&& 0xfffffffffffff).toNat

/-- The reals that round to the magnitude of a finite number.

The ends lie half way to the neighbours, and below a power of two the neighbour is nearer by half.
A real half way between two numbers rounds to the one with the even significand. -/
def rounding (x : Double) : Rounding :=
  let significand := if x.exponentField = 0 then x.fraction else 0x10000000000000 + x.fraction
  let exponent := max x.exponentField 1
  let nearer := x.fraction = 0 ∧ 1 < x.exponentField
  let scale := Nat.pow 2 (exponent - 1077)
  { low := (4 * significand - if nearer then 1 else 2) * scale
    value := 4 * significand * scale
    high := (4 * significand + 2) * scale
    unit := Nat.pow 2 (1077 - exponent)
    closed := significand % 2 = 0 }

/-- The shortest decimal that reads back as the number, in positional notation.

The coarsest grid looked at is above the largest finite number and the finest is fine enough for the
smallest. -/
def text (x : Double) : String :=
  if x.exponentField = 2047 ∧ x.fraction ≠ 0 then "NaN"
  else
    (if x.negative then "-" else "") ++
      if x.exponentField = 2047 then "inf"
      else if x.exponentField = 0 ∧ x.fraction = 0 then "0"
      else (x.rounding.shortest 309 650).positional

end Double

end GraphQuery
