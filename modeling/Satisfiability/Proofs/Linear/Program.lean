import Satisfiability.Linear.Program
import Satisfiability.Proofs.Linear.Vector
import Satisfiability.Proofs.Step

/-!
# Built programs

Programs are built from one without constraints, whether or not the requests on the way succeed
(`Program.Built`). Then there is one coefficient of the objective for each column, and each
constraint has at most one coefficient for a column and none for a column that is not there
(`Program.WellFormed`).
-/

namespace Satisfiability.Linear

namespace Program

open Scalar Step

section build

variable {α : Type} [Scalar α] {program : Program α}

/-- Programs as requests build them. A request that fails leaves a program all the same. -/
inductive Built : Program α → Prop
  | ofColumns (columns : ℕ) : Built (.ofColumns columns)
  | setObjective {program : Program α} (built : Built program) (terms : List (ℕ × α)) :
    Built ((Program.setObjective terms).run.run program).2
  | addConstraint {program : Program α} (built : Built program) (terms : List (ℕ × α)) (bound : α) :
    Built ((Program.addConstraint terms bound).run.run program).2

/-- One coefficient of the objective for each column, and at most one in each constraint. -/
structure WellFormed (program : Program α) : Prop where
  objective : program.objective.length = program.columns
  distinct : ∀ constraint ∈ program.constraints, (constraint.coefficients.map Prod.fst).Nodup
  within : ∀ constraint ∈ program.constraints, ∀ term ∈ constraint.coefficients,
    term.1 < program.columns

omit [Scalar α] in
theorem length_alter (f : α → α → α) (entries : List α) (terms : List (ℕ × α)) :
    (alter f entries terms).2.length = entries.length := by
  induction terms generalizing entries with
  | nil => rfl
  | cons term rest ih =>
    unfold alter
    split
    · rfl
    · rw [ih, List.length_set]

omit [Scalar α] in
theorem WellFormed.setObjective (h : program.WellFormed) (terms : List (ℕ × α)) :
    ((Program.setObjective terms).run.run program).2.WellFormed := by
  have hset : WellFormed { program with
      objective := (alter (fun _ x => x) program.objective terms).2 } :=
    ⟨(length_alter _ _ _).trans h.objective, h.distinct, h.within⟩
  refine ends_iff.1 ?_
  simp only [Program.setObjective, ends_bind, ends_get, ends_set]
  split
  · exact hset
  · exact hset

theorem WellFormed.addConstraint (h : program.WellFormed) (terms : List (ℕ × α)) (bound : α) :
    ((Program.addConstraint terms bound).run.run program).2.WellFormed := by
  refine ends_iff.1 ?_
  simp only [Program.addConstraint, ends_bind, ends_get]
  split
  · exact h
  · set sums := (alter (· + ·) (List.replicate program.columns zero) terms).2 with hsums
    have hlength : sums.length = program.columns := by
      rw [hsums, length_alter, List.length_replicate]
    have hfst : (sums.zipIdx.map Prod.swap).map Prod.fst = List.range program.columns := by
      rw [List.map_map, ← hlength]
      exact List.zipIdx_map_snd 0 sums |>.trans (List.range_eq_range').symm
    refine ⟨h.objective, fun constraint hmem => ?_, fun constraint hmem => ?_⟩
    · rcases List.mem_append.1 hmem with hmem | hmem
      · exact h.distinct constraint hmem
      · rw [List.mem_singleton.1 hmem]
        refine List.Nodup.sublist (List.filter_sublist.map _) ?_
        rw [hfst]
        exact List.nodup_range
    · rcases List.mem_append.1 hmem with hmem | hmem
      · exact h.within constraint hmem
      · rw [List.mem_singleton.1 hmem]
        intro term hterm
        have hcolumn := List.mem_map_of_mem (f := Prod.fst) (List.mem_filter.1 hterm).1
        rw [hfst] at hcolumn
        exact List.mem_range.1 hcolumn

theorem Built.wellFormed (h : program.Built) : program.WellFormed := by
  induction h with
  | ofColumns columns =>
    exact ⟨List.length_replicate, List.forall_mem_nil _, List.forall_mem_nil _⟩
  | setObjective _ terms ih => exact ih.setObjective terms
  | addConstraint _ terms bound ih => exact ih.addConstraint terms bound

end build

/-! ## Feasible assignments -/

variable {program : Program ℚ} {x : List ℚ}

/-- A value for each column, none of them negative, so that all constraints are satisfied. -/
structure Feasible (program : Program ℚ) (x : List ℚ) : Prop where
  length : x.length = program.columns
  nonneg : ∀ value ∈ x, 0 ≤ value
  meets : ∀ constraint ∈ program.constraints, constraintValue constraint x ≤ constraint.bound

theorem satisfies_zero_iff : program.satisfies x 0 = true ↔ program.Feasible x := by
  have hneg : (-0 : ℚ) = 0 := rfl
  have hadd : ∀ bound : ℚ, bound + 0 = bound := add_zero
  simp only [satisfies, Bool.and_eq_true, List.all_eq_true, beq_iff_eq, less_rat, atMost_rat,
    Bool.not_eq_eq_eq_not, Bool.not_true, decide_eq_false_iff_not, decide_eq_true_eq, hneg, not_lt]
  constructor
  · rintro ⟨⟨hlength, hnonneg⟩, hmeets⟩
    exact ⟨hlength, hnonneg, fun constraint hmem => hadd constraint.bound ▸ hmeets constraint hmem⟩
  · rintro ⟨hlength, hnonneg, hmeets⟩
    refine ⟨⟨hlength, hnonneg⟩, fun constraint hmem => ?_⟩
    rw [hadd]
    exact hmeets constraint hmem

end Program

/-- The answer to a program is right: the assignment is feasible, with the objective for its value,
and no feasible one has a greater value; or there are feasible assignments of any value; or there
are none. -/
def Outcome.Right (program : Program ℚ) : Outcome ℚ → Prop
  | .optimal assignment objective => program.Feasible assignment ∧
      objective = program.objectiveValue assignment ∧
      ∀ other, program.Feasible other → program.objectiveValue other ≤ objective
  | .unbounded => ∀ bound, ∃ assignment, program.Feasible assignment ∧
      bound < program.objectiveValue assignment
  | .infeasible => ∀ assignment, ¬ program.Feasible assignment

end Satisfiability.Linear
