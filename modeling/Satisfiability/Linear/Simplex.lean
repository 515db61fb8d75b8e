import Satisfiability.Config
import Satisfiability.Linear.Basis
import Satisfiability.Linear.Program

/-!
# The revised simplex method

The columns of the program are joined by a slack column for each row and by one auxiliary column.
Each pivot exchanges a column of the basis for another one that raises the value of the objective,
until none does. If the slack columns alone are not feasible, the auxiliary column enters first, and
is made as small as possible; the program is feasible if it can be made zero.

The entering column is the one with the greatest reduced cost, and from the moment when more pivots
were made than there are bases, the smallest column that raises the value, so that no basis is met
twice for ever.
-/

namespace Satisfiability.Linear

structure Options (α : Type) where
  /-- How many eta matrices are kept before the basis is factorised again. -/
  etaLimit : Nat
  /-- Pivots of smaller magnitude are avoided where there is a choice. -/
  pivotTolerance : α
  /-- Costs and residuals up to this are taken for zero. -/
  feasibilityTolerance : α
  /-- Whether the smallest column enters from the first pivot on. -/
  bland : Bool
  /-- How many pivots are allowed, if not any number. -/
  iterationLimit : Option Nat
  /-- Entries of a direction up to this do not bound a step. -/
  ratioThreshold : α
  /-- The magnitudes of pivots that show that a matrix has no inverse. -/
  negligible : α → Bool

/-- Pivots of smaller magnitude show that a matrix of floating-point numbers has no inverse. -/
def singularThreshold : Float := 1e-13

def Options.ofConfig (config : LinearConfig) : Options Float where
  etaLimit := config.etaLimit.value
  pivotTolerance := config.pivotTolerance.value
  feasibilityTolerance := config.feasibilityTolerance.value
  bland := config.bland.value
  iterationLimit := config.iterationLimit
  ratioThreshold := 1e-14
  negligible := fun x => x < singularThreshold

def Options.exact (etaLimit : Nat) (bland : Bool) : Options Rat where
  etaLimit := etaLimit
  pivotTolerance := 0
  feasibilityTolerance := 0
  bland := bland
  iterationLimit := none
  ratioThreshold := 0
  negligible := fun x => x == 0

/-! ## The number of bases

Each binomial coefficient is computed from the one before it, and the computation ends as soon as
the greatest word is passed. -/

/-- Goes from the number of ways to choose `i` of `n` things to that of choosing `steps` more. -/
def binomialFrom (n : Nat) : (steps i ways : Nat) → Nat
  | 0, _, ways => ways
  | steps + 1, i, ways =>
    let ways := ways * (n - i) / (i + 1)
    if greatestWord < ways then greatestWord else binomialFrom n steps (i + 1) ways

/-- The number of ways to choose `k` of `n` things, up to the bound. -/
def boundedBinomial (n k : Nat) : Nat :=
  if n < k then 0 else binomialFrom n (min k (n - k)) 0 1

/-! ## The method -/

structure Simplex (α : Type) where
  options : Options α
  /-- The entries of each column, one for each row: first the columns of the program, then the slack
  columns, and then the auxiliary one. -/
  columns : List (List α)
  structural : Nat
  /-- The objective of the program, over all columns. -/
  objective : List α
  /-- The objective pursued at present, over all columns. -/
  costs : List α
  basic : List Nat
  nonBasic : List Nat
  /-- The value of the column in the basis for each row. -/
  values : List α
  basis : Basis α
  iterations : Nat := 0
  /-- The number of pivots after which the smallest column enters. -/
  blandAfter : Nat

namespace Simplex

variable {α : Type} [Scalar α]

def columnOf (program : Program α) (column : Nat) : List α :=
  program.constraints.map fun constraint =>
    ((constraint.coefficients.find? fun (c, _) => c == column).map Prod.snd).getD Scalar.zero

def unit (size index : Nat) (x : α) : List α := (List.replicate size Scalar.zero).set index x

def ofProgram (options : Options α) (program : Program α) : Simplex α :=
  let rows := program.constraints.length
  let structural := program.columns
  let objective := program.objective ++ List.replicate (rows + 1) Scalar.zero
  { options
    columns := (List.range structural).map (columnOf program)
      ++ (List.range rows).map (fun row => unit rows row Scalar.one)
      ++ [List.replicate rows (-Scalar.one)]
    structural
    objective
    costs := objective
    basic := (List.range rows).map (structural + ·)
    nonBasic := List.range structural ++ [structural + rows]
    values := program.constraints.map Constraint.bound
    basis := .identity rows
    blandAfter := boundedBinomial (structural + rows) rows }

def auxiliary (simplex : Simplex α) : Nat := simplex.columns.length - 1

def entry {σ β : Type} : Option β → Step σ β
  | some b => pure b
  | none => throw .outOfRange

/-- Whether a row is the better one to leave: it has the smaller ratio, or the same one and the
smaller column. -/
def leavesBefore (simplex : Simplex α) (row : Nat) (ratio : α) (other : Nat) (best : α) : Bool :=
  let column := fun row => simplex.basic.getD row 0
  Scalar.less ratio best || (Scalar.same ratio best && decide (column row < column other))

def ratioTest (simplex : Simplex α) (direction : List α) : Option Nat :=
  let step := fun (leaving : Option (Nat × α)) ((x, value), row) =>
    if Scalar.atMost x simplex.options.ratioThreshold then leaving
    else
      let ratio := Scalar.positivePart value / x
      match leaving with
      | none => some (row, ratio)
      | some (other, best) =>
        if simplex.leavesBefore row ratio other best then some (row, ratio) else leaving
  ((direction.zip simplex.values).zipIdx.foldl step none).map Prod.fst

/-- Exchanges the column at a place outside the basis for the one of a row, along a direction. -/
def pivot (position row : Nat) (direction : List α) : Step (Simplex α) Unit := do
  let s ← get
  let entering ← entry s.nonBasic[position]?
  let leaving ← entry s.basic[row]?
  let step := (← entry s.values[row]?) / (← entry direction[row]?)
  let basis := s.basis.pushEta row direction
  set { s with
    values := (List.zipWith (fun value x => value - step * x) s.values direction).set row step
    basic := s.basic.set row entering
    nonBasic := s.nonBasic.set position leaving
    basis
    iterations := s.iterations + 1 }
  -- too many eta matrices: the basis is factorised anew from its columns
  if s.options.etaLimit < basis.etas.length then
    let s ← get
    let columns ← s.basic.mapM fun column => entry s.columns[column]?
    match s.basis.refactor s.options.negligible columns with
    | .ok basis => set { s with basis }
    | .error cause => throw (.simplex cause)

/-- A column that may enter: its place outside the basis, its number, and its reduced cost. -/
structure Candidate (α : Type) where
  position : Nat
  column : Nat
  reduced : α

/-- The columns outside the basis that raise the value, in the order in which they are to be
tried. -/
def candidates (simplex : Simplex α) (withAuxiliary bland : Bool) (prices : List α) :
    Option (List (Candidate α)) := do
  let all ← simplex.nonBasic.zipIdx.mapM fun (column, position) => do
    let entries ← simplex.columns[column]?
    let cost ← simplex.costs[column]?
    return (⟨position, column, cost - Scalar.dot prices entries⟩ : Candidate α)
  let improving := all.filter fun c =>
    (withAuxiliary || c.column != simplex.auxiliary)
      && Scalar.less simplex.options.feasibilityTolerance c.reduced
  let order := fun (a b : Candidate α) =>
    -- by number, or by reduced cost with the smaller number first among equals
    if bland then compare a.column b.column
    else (Scalar.order b.reduced a.reduced).then (compare a.column b.column)
  return improving.mergeSort fun a b => (order a b).isLE

/-- A pivot: the place of the entering column, the row of the leaving one, and the direction. -/
structure Move (α : Type) where
  position : Nat
  row : Nat
  direction : List α

inductive Choice (α : Type) where
  | move (move : Move α)
  /-- No row bounds a step, and the value is unbounded. -/
  | unbounded
  | nothing

/-- The first candidate whose pivot is not too small, or else the first one. -/
def chooseMove (simplex : Simplex α) (fallback : Option (Move α)) :
    List (Candidate α) → Option (Choice α)
  | [] => some (match fallback with
    | some move => .move move
    | none => .nothing)
  | candidate :: rest => do
    let entries ← simplex.columns[candidate.column]?
    let direction ← simplex.basis.forward? entries
    match simplex.ratioTest direction with
    | none => return .unbounded
    | some row =>
      let x ← direction[row]?
      let move : Move α := ⟨candidate.position, row, direction⟩
      -- a pivot that is too small is kept in case no other one will do
      if Scalar.atMost simplex.options.pivotTolerance (Scalar.magnitude x) then return .move move
      else simplex.chooseMove (fallback.or (some move)) rest

def usesBland (simplex : Simplex α) : Bool :=
  simplex.options.bland || decide (simplex.blandAfter < simplex.iterations)

/-- One pivot towards a greater value. The result tells whether the value is bounded, once no pivot
is left to make. -/
def improve (withAuxiliary : Bool) : Step (Simplex α) (Option Bool) := do
  let s ← get
  if s.options.iterationLimit.any (· ≤ s.iterations) then throw (.simplex .iterationLimit)
  let costs ← s.basic.mapM fun column => entry s.costs[column]?
  let prices ← entry (s.basis.backward? costs)
  let candidates ← entry (s.candidates withAuxiliary s.usesBland prices)
  if candidates.isEmpty then return some true
  match ← entry (s.chooseMove none candidates) with
  | .unbounded => return some false
  | .nothing => throw (.simplex .singularBasis)
  | .move move =>
    pivot move.position move.row move.direction
    return none

/-- Pivots until the value is as great as possible or unbounded, as long as the budget lasts. The
result tells whether the value is bounded. -/
def optimiseWithin (withAuxiliary : Bool) : (budget : Nat) → Step (Simplex α) Bool
  | 0 => throw .outOfFuel
  | budget + 1 => do
    match ← improve withAuxiliary with
    | some bounded => return bounded
    | none => optimiseWithin withAuxiliary budget

/-- Pivots until the value is as great as possible or unbounded. There are no more bases than sets
of columns; after at most as many pivots and two more the smallest column enters, and then no basis
is met twice. -/
def optimise (withAuxiliary : Bool) : Step (Simplex α) Bool := do
  optimiseWithin withAuxiliary (Nat.pow 2 ((← get).columns.length + 2))

def leastRow (values : List α) : Nat :=
  let step := fun (least : Option (Nat × α)) (entry : α × Nat) =>
    match least with
    | none => some (entry.2, entry.1)
    | some (_, value) => if Scalar.less entry.1 value then some (entry.2, entry.1) else least
  ((values.zipIdx.foldl step none).map Prod.fst).getD 0

/-- Of some columns outside the basis, the one whose entry in a row has the greatest magnitude, and
the magnitude; of several, the first one. -/
def greatestEntry (simplex : Simplex α) (rowOfInverse : List α) : Option (Nat × α) :=
  let step := fun (best : Option (Nat × α)) (place : Nat × Nat) =>
    let (column, position) := place
    if column = simplex.auxiliary then best
    else
      let x := Scalar.magnitude (Scalar.dot rowOfInverse (simplex.columns.getD column []))
      match best with
      | none => some (position, x)
      | some (_, other) => if Scalar.less other x then some (position, x) else best
  simplex.nonBasic.zipIdx.foldl step none

/-- Exchanges the auxiliary column, which is zero in the basis, for some column with an entry in its
row that will do. If there is none, the row is redundant, and the column stays. -/
def expelAuxiliary (row : Nat) : Step (Simplex α) Unit := do
  let s ← get
  let rowOfInverse ← entry (s.basis.backward? (unit s.basic.length row Scalar.one))
  match s.greatestEntry rowOfInverse with
  | none => return ()
  | some (position, x) =>
    if Scalar.less s.options.pivotTolerance x then
      let column ← entry s.nonBasic[position]?
      let direction ← entry (s.basis.forward? (← entry s.columns[column]?))
      pivot position row direction

/-- Looks for a feasible basis without the auxiliary column, and tells whether there is one. -/
def findFeasible : Step (Simplex α) Bool := do
  let s ← get
  match s.nonBasic.idxOf? s.auxiliary with
  | none => throw (.simplex .dimension)
  | some position =>
    let direction ← entry (s.basis.forward? (← entry s.columns[s.auxiliary]?))
    -- the auxiliary column enters where the value is the least, and then no value is negative
    pivot position (leastRow s.values) direction
    modify fun s => { s with costs := unit s.columns.length s.auxiliary (-Scalar.one) }
    -- the auxiliary column cannot be less than zero
    if !(← optimise true) then throw (.simplex .auxiliaryUnbounded)
    let s ← get
    match s.basic.idxOf? s.auxiliary with
    | none => return true
    | some row =>
      if Scalar.less s.options.feasibilityTolerance (← entry s.values[row]?) then return false
      -- it is zero, and another column may as well stand in its row
      expelAuxiliary row
      return true

def assignment (simplex : Simplex α) : List α :=
  (simplex.basic.zip simplex.values).foldl (fun x (column, value) => x.set column value)
    (List.replicate simplex.structural Scalar.zero)

def run : Step (Simplex α) (Outcome α) := do
  let s ← get
  let feasible ←
    -- the slack columns alone are a basis, which is feasible unless a bound is negative
    if s.values.any fun value => Scalar.less value (-s.options.feasibilityTolerance) then
      findFeasible
    else pure true
  if !feasible then return .infeasible
  modify fun s => { s with costs := s.objective }
  if ← optimise false then
    let s ← get
    return .optimal s.assignment (Scalar.dot s.assignment s.objective)
  else return .unbounded

end Simplex

def Program.solve {α : Type} [Scalar α] (options : Options α) (program : Program α) :
    Except Fault (Outcome α) :=
  (Simplex.run.run.run (Simplex.ofProgram options program)).1

end Satisfiability.Linear
