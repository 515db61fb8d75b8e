/-!
# Atoms and literals

Atoms are numbered from zero in the order of their creation. A literal is an atom with the value
that makes the literal true. In clause files atoms are numbered from one and a negative number
stands for a negative literal.
-/

namespace Satisfiability

abbrev Atom : Type := Nat

structure Literal where
  atom : Atom
  positive : Bool
  deriving Repr, DecidableEq

namespace Literal

/-- Literals are ordered by atom, the negative one before the positive one. -/
instance : Ord Literal where
  compare a b := (compare a.atom b.atom).then (compare a.positive b.positive)

def negate (literal : Literal) : Literal := { literal with positive := !literal.positive }

instance : Neg Literal := ⟨negate⟩

@[simp]
theorem atom_neg (literal : Literal) : (-literal).atom = literal.atom := rfl

@[simp]
theorem positive_neg (literal : Literal) : (-literal).positive = !literal.positive := rfl

@[simp]
theorem neg_neg (literal : Literal) : - -literal = literal := by
  cases literal
  simp only [Neg.neg, negate, Bool.not_not]

def toInt (literal : Literal) : Int :=
  if literal.positive then (literal.atom : Int) + 1 else -((literal.atom : Int) + 1)

def ofInt? (n : Int) : Option Literal :=
  if n = 0 then none else some ⟨n.natAbs - 1, decide (0 < n)⟩

/-- The text of a literal: its atom, behind a dash if the literal is negative. -/
def text (literal : Literal) : String :=
  if literal.positive then Nat.repr literal.atom else "-" ++ Nat.repr literal.atom

instance : ToString Literal := ⟨text⟩

end Literal

end Satisfiability
