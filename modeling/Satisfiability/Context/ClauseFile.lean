import Satisfiability.Context.Build
import Satisfiability.Text.Numeral
import Satisfiability.Text.Words

/-!
# Reading clause files

The DIMACS format: integers that are not zero name literals, and a zero ends a clause. Blank lines
and lines that begin with `c` are skipped, a line that begins with `p` tells how many atoms and
clauses to expect, and a line that begins with `%` ends the file. An atom is named by its number.
-/

namespace Satisfiability.Context

open Text

variable {ρ : Type}

structure FileCounts where
  /-- The numbers of atoms and of clauses on the problem line. -/
  expected : Option (Nat × Nat) := none
  clauses : Nat := 0
  deriving Repr, DecidableEq

/-- A clause file read up to some point: the counts and the literals of the clause begun. -/
structure FileReading where
  counts : FileCounts := {}
  clause : Clause := []

def endClause (reading : FileReading) : Step (Context ρ) FileReading := do
  discard (addClause reading.clause)
  return { counts := { reading.counts with clauses := reading.counts.clauses + 1 }, clause := [] }

def readItem (line : Nat) (reading : FileReading) (word : List Char) :
    Step (Context ρ) FileReading := do
  match integer? word with
  | none => throw (.reading (.literal line))
  | some n =>
    if n = 0 then endClause reading
    else
      let atom ← atomNamed (Nat.repr n.natAbs)
      return { reading with clause := reading.clause ++ [⟨atom, decide (0 < n)⟩] }

def readProblemLine (words : List (List Char)) : Except ReadingFault (Nat × Nat) :=
  match words.drop 2 with
  | atoms :: clauses :: _ =>
    match unsigned? atoms, unsigned? clauses with
    | some atoms, some clauses => .ok (atoms, clauses)
    | _, _ => .error .problemSpecification
  | _ => .error .problemSpecification

def readLines (reading : FileReading) :
    (number : Nat) → List (Option String) → Step (Context ρ) FileReading
  | _, [] => return reading
  | number, none :: _ => throw (.reading (.literal number))
  | number, some line :: rest => do
    let line := trimBlanks line.toList
    match line.head? with
    | none => readLines reading (number + 1) rest
    | some 'c' => readLines reading (number + 1) rest
    -- what follows is not part of the problem
    | some '%' => return reading
    | some 'p' =>
      match readProblemLine (words line) with
      | .error fault => throw (.reading fault)
      | .ok expected =>
        readLines { reading with counts := { reading.counts with expected := some expected } }
          (number + 1) rest
    | some _ =>
      -- a clause may go on from line to line
      let reading ← (words line).foldlM (readItem number) reading
      readLines reading (number + 1) rest

/-- Adds the clauses of a file. A clause without a zero at the end of the file counts. -/
def readClauseFile (bytes : ByteArray) : Step (Context ρ) FileCounts := do
  let reading ← readLines {} 1 (lines bytes)
  if reading.clause.isEmpty then return reading.counts
  else return (← endClause reading).counts

end Satisfiability.Context
