import Satisfiability.FirstOrder.Parser
import Satisfiability.Linear.Row
import Satisfiability.Linear.Simplex

/-!
# Linear arithmetic

Formulas whose atoms compare linear expressions are decided over the real numbers. Negations are
pushed to the atoms and the formula is expanded to a disjunction of conjunctions of rows. Each
conjunction is a linear program: a variable is the difference of two columns, and a further column,
at most one and as great as possible, is added to every strict row, which then has to be positive.
-/

namespace Satisfiability.Linear

open Text (ReadingFault)

namespace NormalForm

variable {α : Type} [Scalar α]

def ofAtom (comparison : Comparison) (left right : FirstOrder.Term) (positive : Bool) :
    Except ReadingFault (NormalForm α) :=
  match Expression.ofTerm left with
  | .error fault => .error fault
  | .ok a =>
    match Expression.ofTerm right with
    | .error fault => .error fault
    | .ok b => .ok (if positive then ofComparison comparison a b else ofNegation comparison a b)

def combine (f : NormalForm α → NormalForm α → NormalForm α) :
    Except ReadingFault (NormalForm α) → Except ReadingFault (NormalForm α) →
      Except ReadingFault (NormalForm α)
  | .error fault, _ => .error fault
  | _, .error fault => .error fault
  | .ok a, .ok b => .ok (f a b)

/-- The constraints of a formula without quantifiers, or of its negation. -/
def ofFormula (positive : Bool) : FirstOrder.Formula → Except ReadingFault (NormalForm α)
  | .equality left right => ofAtom .equal left right positive
  | .relation name arguments =>
    match Comparison.ofRelation? name, arguments with
    | some comparison, [left, right] => ofAtom comparison left right positive
    | _, _ => .error (.notArithmetic (FirstOrder.Formula.text (.relation name arguments)))
  | .not inner => ofFormula (!positive) inner
  | .and a b =>
    combine (if positive then both else (· ++ ·)) (ofFormula positive a) (ofFormula positive b)
  | .or a b =>
    combine (if positive then (· ++ ·) else both) (ofFormula positive a) (ofFormula positive b)
  | .implies a b =>
    combine (if positive then (· ++ ·) else both) (ofFormula (!positive) a) (ofFormula positive b)
  | .forAll name body => .error (.notArithmetic (FirstOrder.Formula.text (.forAll name body)))
  | .exist name body => .error (.notArithmetic (FirstOrder.Formula.text (.exist name body)))

end NormalForm

variable {α : Type} [Scalar α]

def variableNamesOf (rows : List (Row α)) : List String :=
  ascending (rows.flatMap fun row => row.coefficients.keys)

def rowTerms (names : List String) (row : Row α) : List (Nat × α) :=
  (names.zipIdx.flatMap fun ((name, i) : String × Nat) =>
    match row.coefficients.find? name with
    | none => []
    | some coefficient => [(2 * i, coefficient), (2 * i + 1, -coefficient)])
  ++ if row.strict then [(2 * names.length, Scalar.one)] else []

/-- Adds the constraints of some rows to a program, and the margin of the strict ones if there are
any. -/
def buildProgram (names : List String) (rows : List (Row α)) : Step (Program α) Unit := do
  let margin := 2 * names.length
  rows.forM fun row => Program.addConstraint (rowTerms names row) row.bound
  if rows.any Row.strict then
    Program.addConstraint [(margin, Scalar.one)] Scalar.one
    Program.setObjective [(margin, Scalar.one)]

def programOf (names : List String) (rows : List (Row α)) : Except Fault (Program α) :=
  let columns := 2 * names.length + if rows.any Row.strict then 1 else 0
  match (buildProgram names rows).run.run (Program.ofColumns columns) with
  | (.ok (), program) => .ok program
  | (.error fault, _) => .error fault

/-- The values of some variables, each the difference of its two columns. -/
def witnessOf (assignment : List α) (names : List String) : Option (NameMap α) :=
  (names.zipIdx.mapM fun ((name, i) : String × Nat) => do
    -- columns are not negative, and a variable may be
    let plus ← assignment[2 * i]?
    let minus ← assignment[2 * i + 1]?
    return (name, plus - minus)).map KeyMap.ofList

def solveRows (options : Options α) (rows : List (Row α)) : Except Fault (Option (NameMap α)) :=
  let names := variableNamesOf rows
  match programOf names rows with
  | .error fault => .error fault
  | .ok program =>
    match program.solve options with
    | .error fault => .error fault
    | .ok .infeasible => .ok none
    -- the only objective is the margin, which is at most one
    | .ok .unbounded => .error .invalidState
    | .ok (.optimal assignment objective) =>
      -- no margin is left for the strict rows
      if rows.any Row.strict && Scalar.atMost objective options.feasibilityTolerance then .ok none
      else
        match witnessOf assignment names with
        | none => .error .outOfRange
        | some witness => .ok (some witness)

namespace NormalForm

/-- Values that satisfy the first conjunction that can be satisfied. -/
def solve (options : Options α) : NormalForm α → Except Fault (Option (NameMap α))
  | [] => .ok none
  | rows :: rest =>
    match solveRows options rows with
    | .error fault => .error fault
    | .ok (some witness) => .ok (some witness)
    | .ok none => solve options rest

def parse (text : String) : Except ReadingFault (NormalForm α) :=
  match FirstOrder.Formula.parse text with
  | .error fault => .error fault
  | .ok formula => ofFormula true formula

end NormalForm

end Satisfiability.Linear
