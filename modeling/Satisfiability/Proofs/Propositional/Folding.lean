import Satisfiability.Proofs.Propositional.Encoding

/-!
# Folded formulas

Folding ends in a truth value or in a formula without any (`Formula.folded_foldConstants`). It
brings no variable in, keeps the value on every model, and leaves what is folded as it is
(`Formula.foldConstants_settles`). Of the rules for the connectives the proofs use only that beside
a truth value a connective comes to a truth value, to its other side, or to the negation of that
(`Formula.Remainder`).
-/

namespace Satisfiability.Propositional.Formula

def truthFree : Formula → Bool
  | truth _ => false
  | var _ => true
  | not inner => inner.truthFree
  | binary _ first second => first.truthFree && second.truthFree

/-- A truth value, or a formula in which none stands. -/
inductive Folded : Formula → Prop
  | truth (value : Bool) : Folded (Formula.truth value)
  | free {formula : Formula} (h : formula.truthFree = true) : Folded formula

variable {formula first second other result : Formula} {connective : Connective}

/-! ## Beside a truth value -/

/-- What a connective can come to when one of its sides is a truth value. -/
inductive Remainder (other : Formula) : Formula → Prop
  | truth (value : Bool) : Remainder other (Formula.truth value)
  | same : Remainder other other
  | negated : Remainder other (not other)

theorem Remainder.folded (h : Remainder other result) (hfree : other.truthFree = true) :
    result.Folded := by
  cases h with
  | truth value => exact .truth value
  | same => exact .free hfree
  | negated => exact .free hfree

theorem Remainder.occurrences_subset (h : Remainder other result) :
    result.occurrences ⊆ other.occurrences := by
  cases h with
  | truth value => exact List.nil_subset _
  | same => exact List.Subset.refl _
  | negated => exact List.Subset.refl _

theorem remainder_foldBinary_left (connective : Connective) (h : other.truthFree = true) (a : Bool) :
    Remainder other (foldBinary connective (truth a) other) := by
  cases other with
  | truth value => cases h
  | _ =>
    -- each connective has a rule of its own for each value beside what is no truth value
    cases connective <;> cases a <;> constructor

theorem remainder_foldBinary_right (connective : Connective) (h : other.truthFree = true) (b : Bool) :
    Remainder other (foldBinary connective other (truth b)) := by
  cases other with
  | truth value => cases h
  | _ => cases connective <;> cases b <;> constructor

theorem foldBinary_of_truthFree (hfirst : first.truthFree = true) (hsecond : second.truthFree = true) :
    foldBinary connective first second = binary connective first second := by
  cases first with
  | truth a => cases hfirst
  | _ =>
    cases second with
    | truth b => cases hsecond
    | _ => rfl

theorem foldNot_of_truthFree (h : formula.truthFree = true) : foldNot formula = not formula := by
  cases formula with
  | truth value => cases h
  | _ => rfl

/-! ## Any formula -/

theorem Folded.foldNot (h : formula.Folded) :
    (foldNot formula).Folded ∧ (Formula.foldNot formula).occurrences ⊆ formula.occurrences := by
  cases h with
  | truth value => exact ⟨.truth _, List.Subset.refl _⟩
  | free hfree =>
    rw [foldNot_of_truthFree hfree]
    exact ⟨.free hfree, List.Subset.refl _⟩

theorem Folded.foldBinary (connective : Connective) (hfirst : first.Folded) (hsecond : second.Folded) :
    (foldBinary connective first second).Folded ∧
      (Formula.foldBinary connective first second).occurrences ⊆
        first.occurrences ++ second.occurrences := by
  cases hfirst with
  | truth a =>
    cases hsecond with
    | truth b => exact ⟨.truth _, List.nil_subset _⟩
    | free hfree =>
      have hremainder := remainder_foldBinary_left connective hfree a
      exact ⟨hremainder.folded hfree, hremainder.occurrences_subset⟩
  | free hfree =>
    cases hsecond with
    | truth b =>
      have hremainder := remainder_foldBinary_right connective hfree b
      exact ⟨hremainder.folded hfree,
        List.subset_append_of_subset_left _ hremainder.occurrences_subset⟩
    | free hfree' =>
      rw [foldBinary_of_truthFree hfree hfree']
      refine ⟨.free ?_, List.Subset.refl _⟩
      rw [truthFree, hfree, hfree', Bool.and_self]

theorem folded_foldConstants (formula : Formula) : formula.foldConstants.Folded := by
  induction formula with
  | truth value => exact .truth value
  | var name => exact .free rfl
  | not inner ih => exact ih.foldNot.1
  | binary connective first second ihFirst ihSecond => exact (ihFirst.foldBinary connective ihSecond).1

theorem occurrences_foldConstants (formula : Formula) :
    formula.foldConstants.occurrences ⊆ formula.occurrences := by
  induction formula with
  | truth | var => exact List.Subset.refl _
  | not inner ih => exact List.Subset.trans (folded_foldConstants inner).foldNot.2 ih
  | binary connective first second ihFirst ihSecond =>
    have hsides := (folded_foldConstants first).foldBinary connective (folded_foldConstants second)
    apply List.Subset.trans hsides.2
    exact List.append_subset.2 ⟨List.subset_append_of_subset_left _ ihFirst,
      List.subset_append_of_subset_right _ ihSecond⟩

theorem variableNames_foldConstants (formula : Formula) :
    formula.foldConstants.variableNames ⊆ formula.variableNames := by
  intro name hname
  apply mem_ascending.2
  exact occurrences_foldConstants formula (mem_ascending.1 hname)

theorem value_congr_foldConstants {valuation other : String → Bool}
    (h : ∀ name ∈ formula.foldConstants.variableNames, valuation name = other name) :
    formula.value valuation = formula.value other := by
  rw [← value_foldConstants formula, ← value_foldConstants formula]
  exact value_congr fun name hname => h name (mem_ascending.2 hname)

theorem foldConstants_of_truthFree (h : formula.truthFree = true) : formula.foldConstants = formula := by
  induction formula with
  | truth value => cases h
  | var name => rfl
  | not inner ih =>
    have hinner : inner.truthFree = true := h
    rw [foldConstants, ih hinner, foldNot_of_truthFree hinner]
  | binary connective first second ihFirst ihSecond =>
    rw [truthFree, Bool.and_eq_true] at h
    obtain ⟨hfirst, hsecond⟩ := h
    rw [foldConstants, ihFirst hfirst, ihSecond hsecond, foldBinary_of_truthFree hfirst hsecond]

theorem Folded.foldConstants (h : formula.Folded) : formula.foldConstants = formula := by
  cases h with
  | truth value => rfl
  | free hfree => exact foldConstants_of_truthFree hfree

/-- Folding ends in a truth value or in a formula without any, with no other variables and the same
value on every model of the variables, and there is nothing left to fold. -/
theorem foldConstants_settles (formula : Formula) :
    ((∃ value, formula.foldConstants = truth value) ∨ formula.foldConstants.truthFree = true) ∧
      formula.foldConstants.variableNames ⊆ formula.variableNames ∧
      (∀ model : String → Option Bool, (∀ name ∈ formula.variableNames, (model name).isSome) →
        ∃ value, formula.evaluate model = some value ∧
          formula.foldConstants.evaluate model = some value) ∧
      formula.foldConstants.foldConstants = formula.foldConstants := by
  have hfolded := folded_foldConstants formula
  refine ⟨?_, variableNames_foldConstants formula, ?_, hfolded.foldConstants⟩
  · generalize formula.foldConstants = folded at hfolded
    cases hfolded with
    | truth value => exact Or.inl ⟨value, rfl⟩
    | free hfree => exact Or.inr hfree
  · intro model hmodel
    -- the model agrees with a total valuation on the variables of both formulas
    let valuation : String → Bool := fun name => (model name).getD false
    have hagrees : ∀ name ∈ formula.occurrences, model name = some (valuation name) := by
      intro name hname
      obtain ⟨value, hvalue⟩ := Option.isSome_iff_exists.1 (hmodel name (mem_ascending.2 hname))
      show model name = some ((model name).getD false)
      rw [hvalue, Option.getD_some]
    have hagrees' : ∀ name ∈ formula.foldConstants.occurrences, model name = some (valuation name) :=
      fun name hname => hagrees name (occurrences_foldConstants formula hname)
    refine ⟨formula.value valuation, evaluate_of_agrees hagrees, ?_⟩
    rw [evaluate_of_agrees hagrees', value_foldConstants]

/-- A formula whose constants take a variable away: `((p->F)|((T+q)&(r|T)))`. -/
def partlyConstant : Formula :=
  binary .or (binary .implies (var "p") (truth false))
    (binary .and (binary .xor (truth true) (var "q")) (binary .or (var "r") (truth true)))

def ownModel (name : String) : Option Bool := [("p", true), ("q", false), ("r", false)].lookup name

theorem foldConstants_settles_partlyConstant :
    (∀ name ∈ partlyConstant.variableNames, (ownModel name).isSome) ∧
      partlyConstant.foldConstants = binary .or (not (var "p")) (not (var "q")) ∧
      ∃ value, partlyConstant.evaluate ownModel = some value ∧
        partlyConstant.foldConstants.evaluate ownModel = some value := by
  have hmodel : ∀ name ∈ partlyConstant.variableNames, (ownModel name).isSome := by decide +kernel
  obtain ⟨-, -, hvalue, -⟩ := foldConstants_settles partlyConstant
  exact ⟨hmodel, rfl, hvalue ownModel hmodel⟩

end Satisfiability.Propositional.Formula
