import Satisfiability.Linear.Expression

/-!
# Linear constraints

A row bounds a sum of variables with coefficients from above, strictly or not. A comparison of two
linear expressions is a disjunction of conjunctions of rows, and so is its negation.
-/

namespace Satisfiability.Linear

/-- The constraint that a sum is at most the bound, or below it. -/
structure Row (α : Type) where
  coefficients : NameMap α
  bound : α
  strict : Bool
  deriving Repr

inductive Comparison where
  | atLeast
  | atMost
  | less
  | equal
  | notEqual
  deriving Repr, DecidableEq

namespace Comparison

def ofRelation? (name : String) : Option Comparison :=
  if name = "GS" then some atLeast
  else if name = "KS" then some atMost
  else if name = "K" then some less
  else if name = "S" then some equal
  else if name = "LS" then some notEqual
  else none

end Comparison

namespace Row

variable {α : Type} [Scalar α]

def nonPositive (expression : Expression α) (strict : Bool) : Row α :=
  ⟨expression.coefficients, -expression.constant, strict⟩

/-- The value of the sum of a row. Variables without a value count as zero. -/
def value (row : Row α) (assignment : NameMap α) : α :=
  Scalar.sum <| row.coefficients.toList.map fun (name, coefficient) =>
    coefficient * (assignment.find? name).getD Scalar.zero

/-- Whether an assignment satisfies the constraint, which may be missed by the tolerance unless it
is strict. -/
def satisfiedBy (row : Row α) (assignment : NameMap α) (tolerance : α) : Bool :=
  if row.strict then Scalar.less (row.value assignment) row.bound
  else Scalar.atMost (row.value assignment) (row.bound + tolerance)

end Row

abbrev NormalForm (α : Type) : Type := List (List (Row α))

namespace NormalForm

variable {α : Type} [Scalar α]

def ofComparison (comparison : Comparison) (left right : Expression α) : NormalForm α :=
  let difference := left.addScaled right (-Scalar.one)
  let reversed := difference.scale (-Scalar.one)
  match comparison with
  | .atMost => [[.nonPositive difference false]]
  | .atLeast => [[.nonPositive reversed false]]
  | .less => [[.nonPositive difference true]]
  | .equal => [[.nonPositive difference false, .nonPositive reversed false]]
  | .notEqual => [[.nonPositive difference true], [.nonPositive reversed true]]

def ofNegation (comparison : Comparison) (left right : Expression α) : NormalForm α :=
  match comparison with
  | .atLeast => ofComparison .less left right
  | .atMost => ofComparison .less right left
  | .less => ofComparison .atLeast left right
  | .equal => ofComparison .notEqual left right
  | .notEqual => ofComparison .equal left right

def both (a b : NormalForm α) : NormalForm α := a.flatMap fun xs => b.map fun ys => xs ++ ys

end NormalForm

end Satisfiability.Linear
