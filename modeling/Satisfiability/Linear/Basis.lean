import Satisfiability.Fault
import Satisfiability.Scalar

/-!
# Factored bases

A square matrix, kept as the product of a factorised matrix and a number of eta matrices, each of
them the identity with one column replaced. The factorisation exchanges rows so that each pivot has
the greatest magnitude of its column; the exchanged rows are the product of a lower triangle with
ones on its diagonal and an upper triangle. Two systems are solved with the product: `forward?`
gives `x` with `Bx = a`, and `backward?` gives `y` with `yᵀB = cᵀ`.
-/

namespace Satisfiability.Linear

/-- The row of a factorised matrix: the row of the matrix it comes from, the entries of the lower
triangle in front of the diagonal, and those of the upper triangle from the diagonal on. -/
structure FactorRow (α : Type) where
  source : Nat
  lower : List α
  upper : List α
  deriving Repr

structure Eta (α : Type) where
  row : Nat
  column : List α
  deriving Repr

/-- A matrix as a product of a factorised one and eta matrices, the oldest first. -/
structure Basis (α : Type) where
  size : Nat
  rows : List (FactorRow α)
  etas : List (Eta α) := []
  deriving Repr

namespace Basis

variable {α : Type} [Scalar α]

def identity (size : Nat) : Basis α :=
  { size
    rows := (List.range size).map fun i =>
      ⟨i, List.replicate i Scalar.zero, Scalar.one :: List.replicate (size - 1 - i) Scalar.zero⟩ }

/-! ## Factorisation -/

def lead (row : FactorRow α) : α := row.upper.headD Scalar.zero

/-- The number of the row whose first entry has the greatest magnitude; of several, the last one. -/
def pivotIndex (rows : List (FactorRow α)) : Nat :=
  let step := fun (best : Option (Nat × α)) (entry : α × Nat) =>
    match best with
    | none => some (entry.2, entry.1)
    | some (index, magnitude) =>
      if (Scalar.order magnitude entry.1).isLE then some (entry.2, entry.1)
      else some (index, magnitude)
  (((rows.map fun row => Scalar.magnitude (lead row)).zipIdx.foldl step none).map Prod.fst).getD 0

/-- The row with a number, with the others behind it: the first one takes its place. -/
def bringForward (rows : List (FactorRow α)) (index : Nat) : List (FactorRow α) :=
  match rows, rows[index]? with
  | first :: rest, some pivot => if index = 0 then rows else pivot :: rest.set (index - 1) first
  | rows, _ => rows

/-- Clears the first entry of a row by subtracting a multiple of the pivot row. The factor becomes
an entry of the lower triangle. -/
def eliminate (pivot row : FactorRow α) : FactorRow α :=
  let factor := lead row / lead pivot
  { row with
    lower := row.lower ++ [factor]
    upper := List.zipWith (fun x p => x - factor * p) row.upper.tail pivot.upper.tail }

/-- Factorises the remaining rows, which have as many entries as there are columns to come. A pivot
that is negligible shows that the matrix has no inverse. -/
def factorise (negligible : α → Bool) : (columns : Nat) → List (FactorRow α) →
    Option (List (FactorRow α))
  | 0, _ => some []
  | columns + 1, rows =>
    match bringForward rows (pivotIndex rows) with
    | [] => none
    | pivot :: others =>
      -- the greatest entry of the column is as good as zero, and so are the others
      if negligible (Scalar.magnitude (lead pivot)) then none
      else (factorise negligible columns (others.map (eliminate pivot))).map (pivot :: ·)

def rowsOfColumns (size : Nat) (columns : List (List α)) : List (FactorRow α) :=
  (List.range size).map fun i => ⟨i, [], columns.map fun column => column.getD i Scalar.zero⟩

/-- The matrix with some columns, factorised, without eta matrices. -/
def refactor (negligible : α → Bool) (basis : Basis α) (columns : List (List α)) :
    Except SimplexFault (Basis α) :=
  if columns.length ≠ basis.size ∨ columns.any (·.length != basis.size) then .error .dimension
  else
    match factorise negligible basis.size (rowsOfColumns basis.size columns) with
    | none => .error .singularBasis
    | some rows => .ok { basis with rows, etas := [] }

def pushEta (basis : Basis α) (row : Nat) (column : List α) : Basis α :=
  { basis with etas := basis.etas ++ [⟨row, column⟩] }

/-! ## Solving with the factors -/

/-- Solves with the lower triangle, from the first row down; the entries found so far stand in
front. -/
def solveLower (a : List α) (found : List α) : List (FactorRow α) → Option (List α)
  | [] => some found
  | row :: rows =>
    match a[row.source]? with
    | none => none
    | some entry => solveLower a (found ++ [entry - Scalar.dot row.lower found]) rows

def solveUpper : List (FactorRow α) → List α → List α
  | row :: rows, entry :: entries =>
    -- the last unknown is found first
    let below := solveUpper rows entries
    (entry - Scalar.dot row.upper.tail below) / lead row :: below
  | _, _ => []

def solveFactors? (basis : Basis α) (a : List α) : Option (List α) :=
  (solveLower a [] basis.rows).map (solveUpper basis.rows)

/-- Solves with the transposed upper triangle, from the first row down. With each entry found stand
the entries of its row from the present column on. -/
def solveUpperTransposed (found : List (List α × α)) : List (FactorRow α) → List α → Option (List α)
  | [], _ => some (found.map Prod.snd)
  | _, [] => none
  | row :: rows, entry :: entries =>
    let above := Scalar.sum (found.map fun (tail, s) => tail.headD Scalar.zero * s)
    let s := (entry - above) / lead row
    solveUpperTransposed
      (found.map (fun (tail, s) => (tail.tail, s)) ++ [(row.upper.tail, s)]) rows entries

/-- Solves with the transposed lower triangle, from the last row up, where the first of the rows has
the given number. -/
def solveLowerTransposed (number : Nat) : List (FactorRow α) → List α → List (FactorRow α × α)
  | row :: rows, entry :: entries =>
    let below := solveLowerTransposed (number + 1) rows entries
    let sum := Scalar.sum (below.map fun (row, v) => row.lower.getD number Scalar.zero * v)
    (row, entry - sum) :: below
  | _, _ => []

def solveFactorsTransposed? (basis : Basis α) (w : List α) : Option (List α) :=
  (solveUpperTransposed [] basis.rows w).map fun s =>
    (solveLowerTransposed 0 basis.rows s).foldl (fun y (row, v) => y.set row.source v)
      (List.replicate basis.size Scalar.zero)

/-! ## Solving with the eta matrices -/

def applyEta? (a : List α) (eta : Eta α) : Option (List α) :=
  match a[eta.row]?, eta.column[eta.row]? with
  | some entry, some diagonal =>
    if eta.column.length < a.length then none
    else
      let pivot := entry / diagonal
      some ((List.zipWith (fun x d => x - d * pivot) a eta.column).set eta.row pivot)
  | _, _ => none

def applyEtaTransposed? (eta : Eta α) (costs : List α) : Option (List α) :=
  match costs[eta.row]?, eta.column[eta.row]? with
  | some entry, some diagonal =>
    let others := Scalar.sum <| (List.zipWith (· * ·) costs eta.column).eraseIdx eta.row
    some (costs.set eta.row ((entry - others) / diagonal))
  | _, _ => none

def forward? (basis : Basis α) (a : List α) : Option (List α) :=
  (basis.solveFactors? a).bind fun x => basis.etas.foldlM applyEta? x

def backward? (basis : Basis α) (c : List α) : Option (List α) :=
  (basis.etas.reverse.foldlM (fun c eta => applyEtaTransposed? eta c) c).bind
    basis.solveFactorsTransposed?

end Basis

end Satisfiability.Linear
