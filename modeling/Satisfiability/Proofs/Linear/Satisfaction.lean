import Satisfiability.Proofs.Linear.Decision

/-!
# Satisfaction of the normal form

The test of a row without tolerance is the meaning of the row (`Row.satisfiedBy_zero_iff`), so that
the clauses of a normal form can be tested for the truth of its formula, or of the negation. Whether
a formula has a normal form does not depend on which of the two is asked for
(`NormalForm.exists_ofFormula_iff`): in both cases all atoms are read, and only how they are put
together differs.
-/

namespace Satisfiability.Linear

theorem Row.satisfiedBy_zero_iff {row : Row ℚ} {assignment : NameMap ℚ} :
    row.satisfiedBy assignment 0 = true ↔ row.Holds (valueIn assignment) := by
  have hvalue : row.value assignment = weightedSum row.coefficients (valueIn assignment) := rfl
  have hbound : row.bound + 0 = row.bound := add_zero _
  unfold satisfiedBy Holds
  rw [hvalue, hbound]
  split
  · exact decide_eq_true_iff
  · exact decide_eq_true_iff

namespace NormalForm

variable {clauses : NormalForm ℚ} {positive : Bool} {formula : FirstOrder.Formula}

/-! ## Which formulas have a normal form -/

theorem exists_combine_iff {f : NormalForm ℚ → NormalForm ℚ → NormalForm ℚ}
    {first second : Except Text.ReadingFault (NormalForm ℚ)} :
    (∃ clauses, combine f first second = .ok clauses) ↔
      (∃ clauses, first = .ok clauses) ∧ ∃ clauses, second = .ok clauses := by
  constructor
  · rintro ⟨clauses, h⟩
    obtain ⟨xs, ys, hfirst, hsecond, -⟩ := combine_eq_ok h
    exact ⟨⟨xs, hfirst⟩, ⟨ys, hsecond⟩⟩
  · rintro ⟨⟨xs, rfl⟩, ⟨ys, rfl⟩⟩
    exact ⟨f xs ys, rfl⟩

/-- Both the formula and its negation have a normal form, or neither has. -/
theorem exists_ofFormula_iff (formula : FirstOrder.Formula) (positive positive' : Bool) :
    (∃ clauses : NormalForm ℚ, ofFormula positive formula = .ok clauses) ↔
      ∃ clauses : NormalForm ℚ, ofFormula positive' formula = .ok clauses := by
  induction formula generalizing positive positive' with
  | equality left right => exact exists_ofAtom_iff.trans exists_ofAtom_iff.symm
  | relation name arguments =>
    unfold ofFormula
    split
    · exact exists_ofAtom_iff.trans exists_ofAtom_iff.symm
    · exact iff_of_false (fun ⟨_, h⟩ => nomatch h) (fun ⟨_, h⟩ => nomatch h)
  | not inner ih => exact ih _ _
  | and first second ihfirst ihsecond =>
    exact exists_combine_iff.trans
      ((and_congr (ihfirst _ _) (ihsecond _ _)).trans exists_combine_iff.symm)
  | or first second ihfirst ihsecond =>
    exact exists_combine_iff.trans
      ((and_congr (ihfirst _ _) (ihsecond _ _)).trans exists_combine_iff.symm)
  | implies first second ihfirst ihsecond =>
    exact exists_combine_iff.trans
      ((and_congr (ihfirst _ _) (ihsecond _ _)).trans exists_combine_iff.symm)
  | forAll name body _ => exact iff_of_false (fun ⟨_, h⟩ => nomatch h) (fun ⟨_, h⟩ => nomatch h)
  | exist name body _ => exact iff_of_false (fun ⟨_, h⟩ => nomatch h) (fun ⟨_, h⟩ => nomatch h)

/-! ## Tests of the clauses -/

theorem exists_satisfied_iff {assignment : NameMap ℚ} :
    (∃ rows ∈ clauses, ∀ row ∈ rows, row.satisfiedBy assignment 0 = true) ↔
      clauses.Holds (valueIn assignment) := by
  simp only [Row.satisfiedBy_zero_iff]
  exact Iff.rfl

theorem models_signed_iff (M : FirstOrder.Structure ℚ) :
    M.Models (if positive then formula else .not formula) ↔ (M.Models formula ↔ positive = true) := by
  cases positive with
  | true => exact (iff_true_right rfl).symm
  | false => exact (iff_false_right Bool.false_ne_true).symm

/-- A formula, or its negation, is true of rational numbers exactly if all rows of some clause of
its normal form are satisfied without tolerance. No row has a coefficient that is zero. There is a
normal form of the formula exactly if there is one of the negation. -/
theorem ofFormula_exact (formula : FirstOrder.Formula) :
    (∀ positive (clauses : NormalForm ℚ), ofFormula positive formula = .ok clauses →
      (∀ assignment : NameMap ℚ,
        (arithmetic (valueIn assignment)).Models (if positive then formula else .not formula) ↔
          ∃ rows ∈ clauses, ∀ row ∈ rows, row.satisfiedBy assignment 0 = true) ∧
      ∀ rows ∈ clauses, ∀ row ∈ rows, ∀ term ∈ row.coefficients.toList, term.2 ≠ 0) ∧
    ((∃ clauses : NormalForm ℚ, ofFormula true formula = .ok clauses) ↔
      ∃ clauses : NormalForm ℚ, ofFormula false formula = .ok clauses) := by
  refine ⟨fun positive clauses h => ⟨fun assignment => ?_, fun rows hrows row hrow => ?_⟩,
    exists_ofFormula_iff formula true false⟩
  · have hmeans : clauses.Means (valueIn assignment) _ := means_ofFormula h
    rw [models_signed_iff, exists_satisfied_iff]
    exact hmeans.holds.symm
  · -- that the coefficients are reduced does not depend on the assignment
    have hmeans : clauses.Means 0 _ := means_ofFormula h
    exact (hmeans.reduced rows hrows row hrow).nonzero

/-- The formula `(K(mult(minus(x,x),y),z)->~S(x,multi(2,y)))`: the first factor of the first product
turns out to be constant. -/
def cancelling : FirstOrder.Formula :=
  .implies
    (.relation "K" [.app "mult" [.app "minus" [.var "x", .var "x"], .var "y"], .var "z"])
    (.not (.relation "S" [.var "x", .app "multi" [.const "2", .var "y"]]))

def cancellingValues : NameMap ℚ := .ofList [("x", 2), ("y", 1), ("z", 1)]

theorem ofFormula_exact_cancelling : ∃ clauses : NormalForm ℚ,
    ofFormula false cancelling = .ok clauses ∧
      (arithmetic (valueIn cancellingValues)).Models (.not cancelling) ∧
      ∃ rows ∈ clauses, ∀ row ∈ rows, row.satisfiedBy cancellingValues 0 = true := by
  obtain ⟨clauses, hclauses, -⟩ := Step.exists_ok
    (by decide +kernel : (ofFormula (α := ℚ) false cancelling).toOption.any fun _ => true)
  set M := arithmetic (valueIn cancellingValues)
  have hless : M.value (.app "mult" [.app "minus" [.var "x", .var "x"], .var "y"]) < M.value (.var "z") := by
    decide +kernel
  have hequal : M.value (.var "x") = M.value (.app "multi" [.const "2", .var "y"]) := by decide +kernel
  have hmodels : M.Models (.not cancelling) := fun himplies => himplies hless hequal
  exact ⟨clauses, hclauses, hmodels, (((ofFormula_exact cancelling).1 false clauses hclauses).1 _).1 hmodels⟩

end NormalForm

end Satisfiability.Linear
