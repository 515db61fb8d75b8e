import Satisfiability.Scalar

/-!
# Decimal numbers

An integer is written with decimal digits behind an optional sign. One that does not fit into 64
bits is not read.

A numeral is a decimal number with an optional sign, fraction and exponent. Its value is a whole
number times a power of ten, and is kept in this form, so that each type of numbers may round it in
its way.
-/

namespace Satisfiability.Text

/-- The number with some decimal digits, the first one the most significant. -/
def digitsValue (digits : List Char) : Nat :=
  digits.foldl (fun n c => 10 * n + (c.toNat - '0'.toNat)) 0

def natural? (text : List Char) : Option Nat :=
  if text.isEmpty || !text.all Char.isDigit then none else some (digitsValue text)

/-- The integer between `-2^63` and `2^63 - 1` written with an optional sign. -/
def integer? (text : List Char) : Option Int :=
  let signed := match text with
    | '-' :: digits => (natural? digits).map fun n => -(n : Int)
    | '+' :: digits => (natural? digits).map Int.ofNat
    | digits => (natural? digits).map Int.ofNat
  signed.filter fun n => decide (-(signBit : Int) ≤ n) && decide (n < (signBit : Int))

/-- The integer between zero and `2^64 - 1` written with an optional plus sign. -/
def unsigned? (text : List Char) : Option Nat :=
  let value := match text with
    | '+' :: digits => natural? digits
    | digits => natural? digits
  value.filter (· < wordCount)

/-- The number `± mantissa * 10 ^ exponent`. -/
structure Numeral where
  negative : Bool
  mantissa : Nat
  exponent : Int
  deriving Repr, DecidableEq

namespace Numeral

def takeSign : List Char → Bool × List Char
  | '-' :: rest => (true, rest)
  | '+' :: rest => (false, rest)
  | rest => (false, rest)

def exponent? : List Char → Option Int
  | [] => some 0
  | c :: rest =>
    if c = 'e' ∨ c = 'E' then
      let (negative, digits) := takeSign rest
      (natural? digits).map fun n => if negative then -(n : Int) else n
    else none

def read? (text : List Char) : Option Numeral :=
  let (negative, text) := takeSign text
  let whole := text.takeWhile Char.isDigit
  let rest := text.dropWhile Char.isDigit
  let (fraction, rest) := match rest with
    | '.' :: rest => (rest.takeWhile Char.isDigit, rest.dropWhile Char.isDigit)
    | rest => ([], rest)
  if whole.isEmpty && fraction.isEmpty then none
  else
    (exponent? rest).map fun exponent =>
      ⟨negative, digitsValue (whole ++ fraction), exponent - fraction.length⟩

end Numeral

end Satisfiability.Text
