/-!
# Words and scalars

Counts, limits and random numbers are machine words, and what bounds them is how many words of a
size there are.

Scalars are the numbers that activities and linear programs are computed with. The operations are
all that the algorithms know of them, and no law is assumed, so that a statement about every scalar
type holds of binary floating point, rounding, infinities and undefined results included, and a
statement about exact arithmetic is one about the rationals.
-/

namespace Satisfiability

/-! ## Words -/

def wordCount : Nat := Nat.pow 2 64

def greatestWord : Nat := wordCount - 1

/-- The number of words of 63 bits, and the value of the sign bit of a word of 64 bits. -/
def signBit : Nat := Nat.pow 2 63

def halfWordCount : Nat := Nat.pow 2 32

/-! ## Scalars -/

class Scalar (α : Type) extends Add α, Sub α, Mul α, Div α, Neg α where
  zero : α
  one : α
  less : α → α → Bool
  /-- Whether the first number is at most the second. -/
  atMost : α → α → Bool
  same : α → α → Bool
  /-- A total order that agrees with `less` wherever numbers are comparable. -/
  order : α → α → Ordering
  magnitude : α → α
  /-- The number nearest to a whole number times a power of ten. -/
  ofDecimal : Nat → Int → α

namespace Scalar

variable {α : Type} [Scalar α]

/-- The sum of a list from left to right. It starts at the neutral element of addition, which for
signed zeros is the negative one. -/
def sum (xs : List α) : α := xs.foldl (· + ·) (-zero)

def dot (xs ys : List α) : α := sum (List.zipWith (· * ·) xs ys)

def positivePart (x : α) : α := if less zero x then x else zero

end Scalar

/-- The place of a floating-point number in the total order: by sign, then by magnitude, with the
undefined results at the ends. -/
def floatRank (x : Float) : Int :=
  let bits := x.toBits.toNat
  if bits < signBit then Int.ofNat bits else -Int.ofNat (bits - signBit) - 1

/-- The floating-point number nearest to a whole number times a power of ten. Powers that are far
out of range are not computed. -/
def floatOfDecimal (mantissa : Nat) (exponent : Int) : Float :=
  let log := (mantissa.log2 : Int)
  if mantissa = 0 then 0.0
  else if 320 < log * 3 / 10 + exponent then 1.0 / 0.0
  else if log * 31 / 100 + 2 + exponent < -340 then 0.0
  else if 0 ≤ exponent then Float.ofScientific mantissa false exponent.toNat
  else Float.ofScientific mantissa true (-exponent).toNat

instance : Scalar Float where
  zero := 0.0
  one := 1.0
  less := fun x y => x < y
  atMost := fun x y => x ≤ y
  same := fun x y => x == y
  order := fun x y => compare (floatRank x) (floatRank y)
  magnitude := Float.abs
  ofDecimal := floatOfDecimal

instance : Scalar Rat where
  zero := 0
  one := 1
  less := fun x y => decide (x < y)
  atMost := fun x y => decide (x ≤ y)
  same := fun x y => decide (x = y)
  order := fun x y => if x < y then .lt else if x = y then .eq else .gt
  magnitude := fun x => if x < 0 then -x else x
  ofDecimal := fun mantissa exponent =>
    if 0 ≤ exponent then mkRat (mantissa * Nat.pow 10 exponent.toNat : Nat) 1
    else mkRat mantissa (Nat.pow 10 (-exponent).toNat)

end Satisfiability
