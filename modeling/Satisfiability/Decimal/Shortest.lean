/-!
# Shortest decimals

A binary floating-point number stands for all real numbers that round to it. Of the decimals among
them, one with as few digits as possible is taken, and of several such the nearest to the number
itself. Everything is computed in whole numbers: a real number is compared with the ends of an
interval after both are multiplied by a common denominator.
-/

namespace Satisfiability.Decimal

/-- The positive number `mantissa * 2 ^ exponent`, with the interval of the real numbers that round
to it. Its ends are the middles between it and its neighbours; the lower neighbour is half as far
away as the upper one if the number is the least of its binary order. -/
structure Binary where
  mantissa : Nat
  exponent : Int
  /-- Whether the number is the least of its binary order, and not of the lowest one. -/
  isLeast : Bool
  deriving Repr, DecidableEq

structure Digits where
  value : Nat
  exponent : Int
  deriving Repr, DecidableEq

namespace Binary

/-- The magnitude of a finite number other than zero, from the bits of its exponent and of its
fraction. -/
def ofFields (order fraction : Nat) : Binary :=
  if order = 0 then ⟨fraction, -1074, false⟩
  else ⟨Nat.pow 2 52 + fraction, (order : Int) - 1075, fraction == 0 && order != 1⟩

def ofBits (bits : Nat) : Binary := ofFields (bits / Nat.pow 2 52 % 2048) (bits % Nat.pow 2 52)

/-- The factors for `x * 10 ^ k` and `y * 2 ^ (q - 2)` by which both become whole numbers in one
scale. -/
def scales (number : Binary) (k : Int) : Nat × Nat :=
  let q := number.exponent - 2
  (Nat.pow 10 k.toNat * Nat.pow 2 (-q).toNat, Nat.pow 2 q.toNat * Nat.pow 10 (-k).toNat)

/-- Whether `digits * 10 ^ k` rounds to the number. The ends of the interval do so if the mantissa
is even. -/
def isReadFrom (number : Binary) (digits : Nat) (k : Int) : Bool :=
  let (tens, quarters) := number.scales k
  let low := quarters * (4 * number.mantissa - if number.isLeast then 1 else 2)
  let high := quarters * (4 * number.mantissa + 2)
  if number.mantissa % 2 = 0 then low ≤ digits * tens && digits * tens ≤ high
  else low < digits * tens && digits * tens < high

/-- The whole part of the number divided by `10 ^ k`, and whether the part behind it is less than a
half. -/
def floorOn (number : Binary) (k : Int) : Nat × Bool :=
  let (tens, quarters) := number.scales k
  let value := quarters * (4 * number.mantissa)
  (value / tens, decide (2 * (value % tens) < tens))

/-- The decimal on the grid of multiples of `10 ^ k` that is nearest to the number among its two
neighbours there, of those that round to it. The upper one is taken from the middle. -/
def onGrid? (number : Binary) (k : Int) : Option Digits :=
  let (below, nearer) := number.floorOn k
  match number.isReadFrom below k, number.isReadFrom (below + 1) k with
  | true, true => some ⟨if nearer then below else below + 1, k⟩
  | true, false => some ⟨below, k⟩
  | false, true => some ⟨below + 1, k⟩
  | false, false => none

/-- The number `k` for which the number lies between `10 ^ (k - 1)`, included, and `10 ^ k`. -/
def decimalOrder (number : Binary) : Int :=
  let (tens, quarters) := number.scales 0
  let value := quarters * (4 * number.mantissa)
  let guess := ((Nat.repr value).length : Int) - (Nat.repr tens).length
  if (number.floorOn guess).1 = 0 then guess else guess + 1

/-- The first decimal found on some grids, each ten times as fine as the one before it. -/
def onGrids (number : Binary) : (grids : Nat) → (k : Int) → Digits
  | 0, k => ⟨(number.floorOn k).1, k⟩
  | grids + 1, k =>
    match number.onGrid? k with
    | some digits => digits
    | none => number.onGrids grids (k - 1)

/-- The shortest decimal that rounds to the number. Seventeen digits are always enough. -/
def shortest (number : Binary) : Digits := number.onGrids 18 number.decimalOrder

end Binary

end Satisfiability.Decimal
