/-!
# Shortest decimals

A binary number stands for every real that rounds to it. Of the decimals among those reals the
shortest are the ones on the coarsest grid of multiples of a power of ten that meets the interval at
all, and of these the one nearest to the number is chosen; of two that are equally near, the larger.

All arithmetic is on natural numbers: the ends of the interval have a common denominator, and a grid
point is compared with them after both are brought to it.
-/

namespace GraphQuery

/-- The reals that round to one number: from `low / unit` to `high / unit`, around
`value / unit`. -/
structure Rounding where
  low : Nat
  value : Nat
  high : Nat
  unit : Nat
  /-- Whether the ends round to the number too. -/
  closed : Bool
  deriving Repr, DecidableEq

/-- A decimal without sign: `digits · 10 ^ exponent`. -/
structure Decimal where
  digits : Nat
  exponent : Int
  deriving Repr, DecidableEq

namespace Rounding

/-- Whether `numerator / (unit · scale)` rounds to the number. -/
def admits (r : Rounding) (numerator scale : Nat) : Bool :=
  if r.closed then r.low * scale ≤ numerator && numerator ≤ r.high * scale
  else r.low * scale < numerator && numerator < r.high * scale

/-- The multiple of `10 ^ exponent` that rounds to the number and is nearest to it, if any does. -/
def onGrid? (r : Rounding) (exponent : Int) : Option Nat :=
  let step := r.unit * Nat.pow 10 exponent.toNat
  let scale := Nat.pow 10 (-exponent).toNat
  let value := r.value * scale
  let below := value / step
  match r.admits (below * step) scale, r.admits ((below + 1) * step) scale with
  | true, true =>
    some (if value - below * step < (below + 1) * step - value then below else below + 1)
  | true, false => some below
  | false, true => some (below + 1)
  | false, false => none

/-- The nearest of the shortest decimals that round to the number, looked for on the grid of
`10 ^ exponent` and on as many finer ones as `finer` says; past these the number is cut off. -/
def shortest (r : Rounding) (exponent : Int) : Nat → Decimal
  | 0 => ⟨r.value * Nat.pow 10 (-exponent).toNat / (r.unit * Nat.pow 10 exponent.toNat), exponent⟩
  | finer + 1 =>
    match r.onGrid? exponent with
    | some digits => ⟨digits, exponent⟩
    | none => r.shortest (exponent - 1) finer

end Rounding

/-- A decimal in positional notation: never an exponent, and a point only before further digits. -/
def Decimal.positional (d : Decimal) : String :=
  let digits := Nat.toDigits 10 d.digits
  let places := (-d.exponent).toNat
  String.ofList <|
    if places = 0 then digits ++ List.replicate d.exponent.toNat '0'
    else if places < digits.length then
      digits.take (digits.length - places) ++ '.' :: digits.drop (digits.length - places)
    else '0' :: '.' :: (List.replicate (places - digits.length) '0' ++ digits)

end GraphQuery
