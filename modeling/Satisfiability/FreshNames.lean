/-!
# Fresh names

A source of names made of a stem and a counter: `z1`, `z2`, …. Names to be avoided are skipped.
The search for the next name ends because the names that the counter reaches differ from each other:
one more than there are names to avoid always holds a free one.
-/

namespace Satisfiability

/-- A source of fresh names: the stem, the counter of the last name, and the names to avoid. -/
structure FreshNames where
  stem : String := "z"
  counter : Nat := 0
  avoided : List String := []
  deriving Repr, DecidableEq

namespace FreshNames

def nameAt (stem : String) (n : Nat) : String := stem ++ Nat.repr n

/-- The least number above `n` whose name is not avoided, if it is one of the next `tries`, and the
number behind those otherwise. -/
def nextFree (stem : String) (avoided : List String) : (tries : Nat) → (n : Nat) → Nat
  | 0, n => n + 1
  | tries + 1, n =>
    if avoided.contains (nameAt stem (n + 1)) then nextFree stem avoided tries (n + 1) else n + 1

def avoid (names : FreshNames) (more : List String) : FreshNames :=
  { names with avoided := names.avoided ++ more }

def fresh (names : FreshNames) : String × FreshNames :=
  let n := nextFree names.stem names.avoided names.avoided.length names.counter
  (nameAt names.stem n, { names with counter := n })

def reset (names : FreshNames) : FreshNames := { names with counter := 0, avoided := [] }

end FreshNames

end Satisfiability
