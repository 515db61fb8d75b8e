import Satisfiability.FirstOrder.Formula

/-!
# The meaning of first-order formulas

A structure interprets variables, constants, functions and relations over a domain, and so it gives
each formula a truth value (`Structure.Models`). Where quantified subformulas are not interpreted,
an outermost one has whatever truth value it is given, so that a formula is true or false by the
truth values of its outermost equalities, relations and quantified subformulas alone
(`Formula.Holds`).
-/

namespace Satisfiability.FirstOrder

structure Structure (D : Type) where
  var : String → D
  const : String → D
  app : String → List D → D
  rel : String → List D → Prop

namespace Structure

variable {D : Type}

mutual

def value (M : Structure D) : Term → D
  | .var name => M.var name
  | .const name => M.const name
  | .app function arguments => M.app function (M.values arguments)

def values (M : Structure D) : List Term → List D
  | [] => []
  | t :: ts => M.value t :: M.values ts

end

/-- The truth of an equality, a relation, or a formula that is not interpreted. -/
def truth (M : Structure D) (quantified : Formula → Prop) : Formula → Prop
  | .equality left right => M.value left = M.value right
  | .relation name arguments => M.rel name (M.values arguments)
  | formula => quantified formula

instance decidableTruth [DecidableEq D] (M : Structure D)
    [hrelations : ∀ name arguments, Decidable (M.rel name arguments)]
    (quantified : Formula → Prop) [DecidablePred quantified] :
    DecidablePred (M.truth quantified)
  | .equality left right => inferInstanceAs (Decidable (M.value left = M.value right))
  | .relation name arguments => hrelations name (M.values arguments)
  | .not inner => inferInstanceAs (Decidable (quantified (.not inner)))
  | .and first second => inferInstanceAs (Decidable (quantified (.and first second)))
  | .or first second => inferInstanceAs (Decidable (quantified (.or first second)))
  | .implies first second => inferInstanceAs (Decidable (quantified (.implies first second)))
  | .forAll name body => inferInstanceAs (Decidable (quantified (.forAll name body)))
  | .exist name body => inferInstanceAs (Decidable (quantified (.exist name body)))

def assign (M : Structure D) (name : String) (d : D) : Structure D :=
  { M with var := fun other => if other = name then d else M.var other }

def Models (M : Structure D) : Formula → Prop
  | .equality left right => M.value left = M.value right
  | .relation name arguments => M.rel name (M.values arguments)
  | .not inner => ¬ M.Models inner
  | .and first second => M.Models first ∧ M.Models second
  | .or first second => M.Models first ∨ M.Models second
  | .implies first second => M.Models first → M.Models second
  | .forAll name body => ∀ d, (M.assign name d).Models body
  | .exist name body => ∃ d, (M.assign name d).Models body

theorem models_iff_truth (M : Structure D) (quantified : Formula → Prop) {formula : Formula}
    (hatomic : formula.isAtomic = true) : M.Models formula ↔ M.truth quantified formula := by
  cases formula with
  | equality left right => rfl
  | relation name arguments => rfl
  | _ => exact absurd hatomic (by simp [Formula.isAtomic])

end Structure

namespace Formula

/-- Whether a formula is true, given the truth of its outermost equalities, relations and quantified
subformulas. -/
def Holds (truth : Formula → Prop) : Formula → Prop
  | not inner => ¬ inner.Holds truth
  | and first second => first.Holds truth ∧ second.Holds truth
  | or first second => first.Holds truth ∨ second.Holds truth
  | implies first second => first.Holds truth → second.Holds truth
  | formula => truth formula

/-- A formula can be evaluated where the truth of its parts can be decided. -/
instance decidableHolds (truth : Formula → Prop) [DecidablePred truth] :
    DecidablePred (Holds truth)
  | not inner =>
    have := decidableHolds truth inner
    inferInstanceAs (Decidable (¬ inner.Holds truth))
  | and first second =>
    have := decidableHolds truth first
    have := decidableHolds truth second
    inferInstanceAs (Decidable (first.Holds truth ∧ second.Holds truth))
  | or first second =>
    have := decidableHolds truth first
    have := decidableHolds truth second
    inferInstanceAs (Decidable (first.Holds truth ∨ second.Holds truth))
  | implies first second =>
    have := decidableHolds truth first
    have := decidableHolds truth second
    inferInstanceAs (Decidable (first.Holds truth → second.Holds truth))
  | equality left right => inferInstanceAs (Decidable (truth (equality left right)))
  | relation name arguments => inferInstanceAs (Decidable (truth (relation name arguments)))
  | forAll name body => inferInstanceAs (Decidable (truth (forAll name body)))
  | exist name body => inferInstanceAs (Decidable (truth (exist name body)))

/-- The outermost equalities, relations and quantified subformulas, from left to right and with
repetitions. -/
def outermost : Formula → List Formula
  | not inner => inner.outermost
  | and first second => first.outermost ++ second.outermost
  | or first second => first.outermost ++ second.outermost
  | implies first second => first.outermost ++ second.outermost
  | formula => [formula]

end Formula

end Satisfiability.FirstOrder
