import Satisfiability.Fault
import Satisfiability.Scalar

/-!
# Linear programs

A linear program asks for the greatest value of a sum over some columns, none of them negative,
under constraints that bound other such sums from above.
-/

namespace Satisfiability.Linear

structure Constraint (α : Type) where
  /-- The columns with their coefficients, none of them zero. -/
  coefficients : List (Nat × α)
  bound : α
  deriving Repr

structure Program (α : Type) where
  columns : Nat
  /-- The coefficient of each column in the sum to be made as great as possible. -/
  objective : List α
  constraints : List (Constraint α) := []
  deriving Repr

inductive Outcome (α : Type) where
  /-- This assignment is feasible, and its value is the greatest. -/
  | optimal (assignment : List α) (objective : α)
  | unbounded
  | infeasible
  deriving Repr

namespace Program

variable {α : Type} [Scalar α]

/-- The program over some columns without constraints and with nothing to be made greater. -/
def ofColumns (columns : Nat) : Program α :=
  { columns, objective := List.replicate columns Scalar.zero }

/-- Changes entries of a list one after the other, up to the first that is not there. Tells whether
all of them were there. -/
def alter (f : α → α → α) : List α → List (Nat × α) → Bool × List α
  | entries, [] => (true, entries)
  | entries, (column, x) :: rest =>
    match entries[column]? with
    | none => (false, entries)
    | some old => alter f (entries.set column (f old x)) rest

/-- Sets the coefficients of some columns in the objective. Those in front of a column that is not
there are set all the same. -/
def setObjective (terms : List (Nat × α)) : Step (Program α) Unit := do
  let program ← get
  let (complete, objective) := alter (fun _ x => x) program.objective terms
  set { program with objective }
  if !complete then throw (.simplex .dimension)

/-- Adds a constraint. Coefficients of one column are added up, and those that are zero are left
out. -/
def addConstraint (terms : List (Nat × α)) (bound : α) : Step (Program α) Unit := do
  let program ← get
  let (complete, sums) := alter (· + ·) (List.replicate program.columns Scalar.zero) terms
  if !complete then throw (.simplex .dimension)
  let coefficients := (sums.zipIdx.map Prod.swap).filter fun (_, coefficient) =>
    !Scalar.same coefficient Scalar.zero
  let constraint : Constraint α := { coefficients, bound }
  set { program with constraints := program.constraints ++ [constraint] }

def objectiveValue (program : Program α) (assignment : List α) : α :=
  Scalar.dot program.objective assignment

def constraintValue (constraint : Constraint α) (assignment : List α) : α :=
  Scalar.sum <| constraint.coefficients.map fun (column, coefficient) =>
    coefficient * assignment.getD column Scalar.zero

/-- Whether an assignment gives each column a value that is not negative and satisfies each
constraint, all of this up to a tolerance. -/
def satisfies (program : Program α) (assignment : List α) (tolerance : α) : Bool :=
  assignment.length == program.columns
    && assignment.all (fun x => !Scalar.less x (-tolerance))
    && program.constraints.all fun constraint =>
      Scalar.atMost (constraintValue constraint assignment) (constraint.bound + tolerance)

end Program

end Satisfiability.Linear
