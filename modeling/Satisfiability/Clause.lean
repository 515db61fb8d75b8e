import Satisfiability.Literal

/-!
# Clauses

A clause is a disjunction of literals, written as a list of them.
-/

namespace Satisfiability

abbrev Clause : Type := List Literal

namespace Clause

def atoms (clause : Clause) : List Atom := clause.map Literal.atom

/-- The literals behind those kept already, each once; none if some atom stands with both signs. -/
def canonicalFrom (kept : Clause) : Clause → Option Clause
  | [] => some kept
  | literal :: rest =>
    if kept.contains (-literal) then none
    else if kept.contains literal then canonicalFrom kept rest
    else canonicalFrom (kept ++ [literal]) rest

/-- The clause with each literal once, in the order of first occurrence; none for a tautology. -/
def canonical? (clause : Clause) : Option Clause := canonicalFrom [] clause

def line (clause : Clause) : String :=
  String.join (clause.map fun literal => toString literal.toInt ++ " ") ++ "0"

end Clause

end Satisfiability
