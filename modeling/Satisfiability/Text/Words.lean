/-!
# Words and lines

Words are separated by blank characters, those with the Unicode property `White_Space`. The property
has twenty-five members, in ten runs of consecutive code points.

A text in bytes is cut at its line feeds before it is decoded, so that bytes that are no text spoil
only their own line.
-/

namespace Satisfiability.Text

/-- The runs of consecutive code points with the property `White_Space`, first and last included. -/
def blankRuns : List (Nat × Nat) :=
  [(0x09, 0x0D), (0x20, 0x20), (0x85, 0x85), (0xA0, 0xA0), (0x1680, 0x1680), (0x2000, 0x200A),
   (0x2028, 0x2029), (0x202F, 0x202F), (0x205F, 0x205F), (0x3000, 0x3000)]

def isBlank (c : Char) : Bool :=
  blankRuns.any fun (first, last) => first ≤ c.toNat && c.toNat ≤ last

example : (blankRuns.map fun (first, last) => last + 1 - first).sum = 25 := by decide

def trimBlanks (s : List Char) : List Char :=
  ((s.dropWhile isBlank).reverse.dropWhile isBlank).reverse

/-- The words of a line: the longest runs of characters that are not blank. -/
def words (s : List Char) : List (List Char) :=
  (s.splitBy fun a b => isBlank a == isBlank b).filter fun run => run.any (!isBlank ·)

/-! ## Lines -/

def splitAtAll {α : Type} (p : α → Bool) : List α → List (List α)
  | [] => [[]]
  | a :: rest =>
    if p a then [] :: splitAtAll p rest
    else
      match splitAtAll p rest with
      | [] => [[a]]
      | piece :: pieces => (a :: piece) :: pieces

def lines (bytes : ByteArray) : List (Option String) :=
  (splitAtAll (· == 10) bytes.data.toList).map fun line =>
    String.fromUTF8? ⟨line.toArray⟩

end Satisfiability.Text
