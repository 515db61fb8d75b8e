import Satisfiability.Fault
import Satisfiability.Propositional.Formula

/-!
# Conjunctive normal form over named variables

A formula in conjunctive normal form is one of the two constants or a list of clauses, none of them
empty or tautologous. Here are the passage to that form from any clauses, and the reading of
formulas that have the shape already.
-/

namespace Satisfiability.Propositional

open Satisfiability.Text

structure NamedLiteral where
  name : String
  positive : Bool
  deriving Repr, DecidableEq

namespace NamedLiteral

/-- Literals are ordered by name, the negative one before the positive one. -/
instance : Ord NamedLiteral where
  compare a b := (compare a.name b.name).then (compare a.positive b.positive)

def negate (literal : NamedLiteral) : NamedLiteral := { literal with positive := !literal.positive }

instance : Neg NamedLiteral := ⟨negate⟩

def text (literal : NamedLiteral) : String :=
  if literal.positive then literal.name else "-" ++ literal.name

instance : ToString NamedLiteral := ⟨text⟩

def holds (valuation : String → Bool) (literal : NamedLiteral) : Bool :=
  valuation literal.name == literal.positive

end NamedLiteral

abbrev NamedClause : Type := List NamedLiteral

def NamedClause.isTautology (clause : NamedClause) : Bool :=
  clause.any fun literal => clause.contains (-literal)

inductive Cnf where
  | always
  | never
  | clauses (kept : List NamedClause)
  deriving Repr, DecidableEq

namespace Cnf

/-- The normal form of some clauses: tautologies are dropped, and each clause lists its literals in
order and once. -/
def ofClauses (clauses : List NamedClause) : Cnf :=
  if clauses.contains [] then .never
  else
    match (clauses.filter (!·.isTautology)).map ascending with
    | [] => .always
    | kept => .clauses kept

def holds (valuation : String → Bool) : Cnf → Bool
  | always => true
  | never => false
  | clauses kept => kept.all (·.any (·.holds valuation))

end Cnf

namespace Formula

def conjuncts : Formula → List Formula
  | binary .and first second => first.conjuncts ++ second.conjuncts
  | formula => [formula]

def disjuncts : Formula → List Formula
  | binary .or first second => first.disjuncts ++ second.disjuncts
  | formula => [formula]

/-- A variable, a truth value, or one of these under a single negation. -/
def literalOrTruth? : Formula → Option (NamedLiteral ⊕ Bool)
  | var name => some (.inl ⟨name, true⟩)
  | truth value => some (.inr value)
  | not (var name) => some (.inl ⟨name, false⟩)
  | not (truth value) => some (.inr (!value))
  | _ => none

/-- The clause of a disjunction of literals and truth values, which is no clause at all if one of
the values is true. -/
def clauseOf? (formula : Formula) : Option (Option NamedClause) :=
  (formula.disjuncts.mapM literalOrTruth?).map fun parts =>
    -- what is false adds nothing to a disjunction
    if parts.contains (.inr true) then none
    else some (parts.filterMap fun part => part.getLeft?)

/-- The normal form of a conjunction of disjunctions of literals and truth values, read off without
any new variable. -/
def toCnf (formula : Formula) : Except ReadingFault Cnf :=
  match formula.conjuncts.mapM clauseOf? with
  | none => .error .notCnf
  | some clauses => .ok (Cnf.ofClauses (clauses.filterMap id))

end Formula

end Satisfiability.Propositional
