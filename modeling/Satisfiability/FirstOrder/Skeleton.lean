import Satisfiability.FreshNames
import Satisfiability.FirstOrder.Formula
import Satisfiability.Propositional.Formula

/-!
# Propositional skeletons

The skeleton of a first-order formula has a new propositional variable in place of each outermost
equality, relation or quantified subformula, equal subformulas being replaced by one variable. The
replacements are kept beside it, so that the formula can be rebuilt.
-/

namespace Satisfiability.FirstOrder

open Propositional (Connective)

/-- The subformulas replaced so far with their variables, and the source of the variables. -/
structure Skeletons where
  names : FreshNames
  replaced : List (Formula × String) := []

namespace Skeletons

def variableFor (state : Skeletons) (formula : Formula) : String × Skeletons :=
  match state.replaced.lookup formula with
  | some name => (name, state)
  | none =>
    let (name, names) := state.names.fresh
    (name, ⟨names, state.replaced ++ [(formula, name)]⟩)

def skeletonOf (state : Skeletons) : Formula → Propositional.Formula × Skeletons
  | .not inner =>
    let (a, state) := state.skeletonOf inner
    (.not a, state)
  | .and first second =>
    let (a, state) := state.skeletonOf first
    let (b, state) := state.skeletonOf second
    (.binary .and a b, state)
  | .or first second =>
    let (a, state) := state.skeletonOf first
    let (b, state) := state.skeletonOf second
    (.binary .or a b, state)
  | .implies first second =>
    let (a, state) := state.skeletonOf first
    let (b, state) := state.skeletonOf second
    (.binary .implies a b, state)
  | formula =>
    let (name, state) := state.variableFor formula
    (.var name, state)

end Skeletons

namespace Formula

/-- The skeleton of a formula with the replaced subformulas, in the order of their first occurrence,
each with its variable; and the source of names behind them. -/
def skeleton (formula : Formula) (names : FreshNames) :
    Propositional.Formula × List (Formula × String) × FreshNames :=
  let (skeleton, state) := Skeletons.skeletonOf { names } formula
  (skeleton, state.replaced, state.names)

def equivalence (a b : Formula) : Formula := and (implies a b) (implies b a)

def combine : Connective → Formula → Formula → Formula
  | .and, a, b => and a b
  | .or, a, b => or a b
  | .implies, a, b => implies a b
  | .iff, a, b => equivalence a b
  | .xor, a, b => not (equivalence a b)
  | .nand, a, b => not (and a b)
  | .nor, a, b => not (or a b)

/-- The formula with each variable of a skeleton replaced by the formula it stands for. There is
none if a variable stands for nothing or a truth value occurs. -/
def ofSkeleton? (formulaFor : String → Option Formula) : Propositional.Formula → Option Formula
  | .truth _ => none
  | .var name => formulaFor name
  | .not inner => (ofSkeleton? formulaFor inner).map not
  | .binary connective first second =>
    match ofSkeleton? formulaFor first, ofSkeleton? formulaFor second with
    | some a, some b => some (combine connective a b)
    | _, _ => none

end Formula

end Satisfiability.FirstOrder
