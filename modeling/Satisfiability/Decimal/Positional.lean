import Satisfiability.Decimal.Shortest
import Satisfiability.Scalar
import Satisfiability.Text.Numeral

/-!
# Floating-point numbers as text

Numbers are written in positional notation, without an exponent however great or small they are, and
without a point if they are whole. They are read in the same notation and with exponents. Infinities
and undefined results are words, which are read in any case and in two spellings.
-/

namespace Satisfiability.Decimal

open Text (Numeral)

def Digits.positional (number : Digits) : String :=
  let digits := Nat.repr number.value
  let places := (-number.exponent).toNat
  if places = 0 then digits ++ String.ofList (List.replicate number.exponent.toNat '0')
  else
    let digits := String.ofList (List.replicate (places + 1 - digits.length) '0') ++ digits
    let whole := digits.length - places
    String.ofList (digits.toList.take whole) ++ "." ++ String.ofList (digits.toList.drop whole)

example : Digits.positional ⟨12, 3⟩ = "12000" := by decide +kernel
example : Digits.positional ⟨75, -2⟩ = "0.75" := by decide +kernel
example : Digits.positional ⟨125, -1⟩ = "12.5" := by decide +kernel

/-- The magnitude of a floating-point number as text, from its bits without the sign. -/
def magnitudeText (bits : Nat) : String :=
  if bits = 0 then "0"
  else if bits = 0x7FF0000000000000 then "inf"
  else (Binary.ofBits bits).shortest.positional

def textOfBits (bits : Nat) : String :=
  let magnitude := bits % signBit
  if 0x7FF0000000000000 < magnitude then "NaN"
  else if bits < signBit then magnitudeText magnitude
  else "-" ++ magnitudeText magnitude

def text (x : Float) : String := textOfBits x.toBits.toNat

example : textOfBits 0x3FE8000000000000 = "0.75" := by decide +kernel
example : textOfBits 0xBFF0000000000000 = "-1" := by decide +kernel
example : textOfBits 0x44B52D02C7E14AF6 = "100000000000000000000000" := by decide +kernel
example : textOfBits 0x3E7AD7F29ABCAF48 = "0.0000001" := by decide +kernel

def readWord? (word : List Char) : Option Float :=
  let word := String.ofList (word.map Char.toLower)
  if word = "inf" ∨ word = "infinity" then some (1.0 / 0.0)
  else if word = "nan" then some (0.0 / 0.0)
  else none

def read? (text : List Char) : Option Float :=
  let (negative, word) := Numeral.takeSign text
  match readWord? word with
  | some x => some (if negative then -x else x)
  | none =>
    (Numeral.read? text).map fun numeral =>
      let x := floatOfDecimal numeral.mantissa numeral.exponent
      if numeral.negative then -x else x

end Satisfiability.Decimal
