import Satisfiability.Proofs.Linear.Program
import Satisfiability.Proofs.Linear.Tableau

/-!
# The equations of a program

The method starts with an equation for each constraint: the value of its sum and its slack are the
bound, where the auxiliary column is zero (`sum_row`). So the solutions without negative entries are
the feasible assignments together with their slacks (`feasible_of_solution`,
`extension_mem_solutions`).
-/

namespace Satisfiability.Linear.Simplex

open Scalar Finset Pursuit

variable {program : Program ℚ} {options : Options ℚ} {costs : List ℚ}

/-! ## Entries of the columns -/

theorem getD_columnOf {i : ℕ} (hi : i < program.constraints.length) (j : ℕ)
    (hdistinct : (program.constraints[i].coefficients.map Prod.fst).Nodup) :
    (columnOf program j).getD i 0 = spread program.constraints[i].coefficients j := by
  rw [columnOf, List.getD_eq_getElem _ _ (by rwa [List.length_map]), List.getElem_map]
  generalize program.constraints[i].coefficients = terms at hdistinct
  cases hfind : terms.find? fun term => term.1 == j with
  | none =>
    rw [List.find?_eq_none] at hfind
    rw [spread_of_not_mem fun hmem => ?_]
    · rfl
    · obtain ⟨term, hterm, heq⟩ := List.mem_map.1 hmem
      exact hfind term hterm (beq_iff_eq.2 heq)
  | some term =>
    have heq : term.1 = j := beq_iff_eq.1 (List.find?_some (p := fun term : ℕ × ℚ => term.1 == j) hfind)
    rw [← heq, spread_of_mem hdistinct (List.mem_of_find?_eq_some hfind)]
    rfl

variable (options) in
theorem column_structural {j : ℕ} (hj : j < program.columns) :
    (ofProgram options program).column j = columnOf program j := by
  have hlength : ((List.range program.columns).map (columnOf program)).length = program.columns := by simp
  rw [column, ofProgram, List.append_assoc, List.getD_append _ _ _ _ (by rwa [hlength]),
    List.getD_eq_getElem _ _ (by rwa [hlength]), List.getElem_map, List.getElem_range]

variable (options) in
theorem column_slack {i : ℕ} (hi : i < program.constraints.length) :
    (ofProgram options program).column (program.columns + i) = unit program.constraints.length i one := by
  rw [column, ofProgram, List.getD_append _ _ _ _ (by simpa using hi),
    List.getD_append_right _ _ _ _ (by simp), List.length_map, List.length_range, Nat.add_sub_cancel_left,
    List.getD_eq_getElem _ _ (by simpa using hi), List.getElem_map, List.getElem_range]

variable (options) in
theorem column_auxiliary : (ofProgram options program).column
    (program.columns + program.constraints.length) = List.replicate program.constraints.length (-1) := by
  rw [column, ofProgram, List.getD_append_right _ _ _ _ (by simp)]
  simp

/-! ## Rows -/

def structuralPart (program : Program ℚ) (x : ℕ → ℚ) : List ℚ := (List.range program.columns).map x

theorem getD_structuralPart {j : ℕ} (hj : j < program.columns) (x : ℕ → ℚ) :
    (structuralPart program x).getD j 0 = x j := by
  rw [structuralPart, List.getD_eq_getElem _ _ (by simpa using hj), List.getElem_map, List.getElem_range]

variable (options) in
/-- A row adds up to the value of its constraint with the slack, less the auxiliary column. -/
theorem sum_row (h : program.WellFormed) {i : ℕ} (hi : i < program.constraints.length) (x : ℕ → ℚ) :
    ∑ j ∈ range (ofProgram options program).columns.length,
        ((ofProgram options program).column j).getD i 0 * x j =
      Program.constraintValue program.constraints[i] (structuralPart program x) + x (program.columns + i) -
        x (program.columns + program.constraints.length) := by
  have hmem := List.getElem_mem hi
  have hwidth : (ofProgram options program).columns.length =
      program.columns + program.constraints.length + 1 := (shaped_ofProgram h).width
  have hstructural : ∑ j ∈ range program.columns, ((ofProgram options program).column j).getD i 0 * x j =
      Program.constraintValue program.constraints[i] (structuralPart program x) := by
    calc _ = ∑ j ∈ range program.columns, x j * spread program.constraints[i].coefficients j := by
          refine sum_congr rfl fun j hj => ?_
          rw [column_structural options (mem_range.1 hj), getD_columnOf hi j (h.distinct _ hmem), mul_comm]
      _ = _ := by
          rw [sum_mul_spread (h.within _ hmem), Program.constraintValue]
          refine congrArg Scalar.sum (List.map_congr_left fun term hterm => ?_)
          change x term.1 * term.2 = term.2 * (structuralPart program x).getD term.1 0
          rw [getD_structuralPart (h.within _ hmem term hterm), mul_comm]
  have hslack : ∑ k ∈ range program.constraints.length,
      ((ofProgram options program).column (program.columns + k)).getD i 0 * x (program.columns + k) =
        x (program.columns + i) := by
    rw [sum_eq_single_of_mem i (mem_range.2 hi) fun k hk hne => by
      rw [column_slack options (mem_range.1 hk), Basis.getD_unit hi, if_neg hne, zero_mul],
      column_slack options hi, Basis.getD_unit hi, if_pos rfl, one_mul]
  have hauxiliary : ((ofProgram options program).column
      (program.columns + program.constraints.length)).getD i 0 = -1 := by
    rw [column_auxiliary, List.getD_eq_getElem _ _ (by simpa using hi), List.getElem_replicate]
  -- the sum over all columns falls into the three kinds
  rw [hwidth, sum_range_succ, sum_range_add, hstructural, hslack, hauxiliary]
  ring

/-! ## Solutions -/

variable {x : ℕ → ℚ} {assignment : List ℚ}

theorem mem_solutions_iff (h : program.WellFormed) :
    x ∈ (pursuit (ofProgram options program) costs).solutions ↔
      ∀ (i : ℕ) (hi : i < program.constraints.length),
        Program.constraintValue program.constraints[i] (structuralPart program x) + x (program.columns + i) -
          x (program.columns + program.constraints.length) = program.constraints[i].bound := by
  have hbound : ∀ (i : ℕ) (hi : i < program.constraints.length),
      (ofProgram options program).values.getD i 0 = program.constraints[i].bound := by
    intro i hi
    change (program.constraints.map Constraint.bound).getD i 0 = _
    rw [List.getD_eq_getElem _ _ (by rwa [List.length_map]), List.getElem_map]
  refine forall_congr' fun i => forall_congr' fun hi => ?_
  rw [sum_row options h hi, hbound i hi]

/-- A solution without negative entries whose auxiliary entry is zero is a feasible assignment. -/
theorem feasible_of_solution (h : program.WellFormed)
    (hx : x ∈ (pursuit (ofProgram options program) costs).solutions) (hnonneg : ∀ j, 0 ≤ x j)
    (hauxiliary : x (program.columns + program.constraints.length) = 0) :
    program.Feasible (structuralPart program x) where
  length := by simp [structuralPart]
  nonneg := by
    intro value hmem
    obtain ⟨j, -, rfl⟩ := List.mem_map.1 hmem
    exact hnonneg j
  meets := by
    intro constraint hmem
    obtain ⟨i, hi, rfl⟩ := List.mem_iff_getElem.1 hmem
    have hrow := (mem_solutions_iff h).1 hx i hi
    have hslack := hnonneg (program.columns + i)
    rw [hauxiliary] at hrow
    linarith

/-- The values of all columns for an assignment: the slack of each constraint, and zero for the
auxiliary column. -/
def extension (program : Program ℚ) (assignment : List ℚ) (j : ℕ) : ℚ :=
  (assignment ++ program.constraints.map fun constraint =>
    constraint.bound - Program.constraintValue constraint assignment).getD j 0

theorem structuralPart_extension (h : program.Feasible assignment) :
    structuralPart program (extension program assignment) = assignment := by
  refine Basis.ext_getD (by simp [structuralPart, h.length]) fun j hj => ?_
  have hj' : j < program.columns := by simpa [structuralPart] using hj
  rw [getD_structuralPart hj', extension, List.getD_append _ _ _ _ (by rwa [h.length])]

theorem extension_auxiliary (h : program.Feasible assignment) :
    extension program assignment (program.columns + program.constraints.length) = 0 := by
  rw [extension, List.getD_eq_default]
  simp [h.length]

theorem extension_nonneg (h : program.Feasible assignment) (j : ℕ) : 0 ≤ extension program assignment j := by
  rw [extension, List.getD_eq_getElem?_getD]
  cases hentry : (assignment ++ program.constraints.map fun constraint =>
      constraint.bound - Program.constraintValue constraint assignment)[j]? with
  | none => exact le_refl _
  | some value =>
    rcases List.mem_append.1 (List.mem_of_getElem? hentry) with hmem | hmem
    · exact h.nonneg value hmem
    · obtain ⟨constraint, hconstraint, rfl⟩ := List.mem_map.1 hmem
      exact sub_nonneg.2 (h.meets constraint hconstraint)

theorem extension_mem_solutions (hprogram : program.WellFormed) (h : program.Feasible assignment) :
    extension program assignment ∈ (pursuit (ofProgram options program) costs).solutions := by
  refine (mem_solutions_iff hprogram).2 fun i hi => ?_
  have hslack : extension program assignment (program.columns + i) =
      program.constraints[i].bound - Program.constraintValue program.constraints[i] assignment := by
    rw [extension, List.getD_append_right _ _ _ _ (by simp [h.length]), h.length, Nat.add_sub_cancel_left,
      List.getD_eq_getElem _ _ (by simpa using hi), List.getElem_map]
  rw [structuralPart_extension h, hslack, extension_auxiliary h]
  ring

/-! ## Values -/

theorem objective_ofProgram : (ofProgram options program).objective =
    program.objective ++ List.replicate (program.constraints.length + 1) 0 := rfl

variable (options) in
theorem value_objective (h : program.WellFormed) (x : ℕ → ℚ) :
    (pursuit (ofProgram options program) (ofProgram options program).objective).value x =
      program.objectiveValue (structuralPart program x) := by
  have hwidth : (ofProgram options program).columns.length =
      program.columns + (program.constraints.length + 1) := (shaped_ofProgram h).width
  rw [Pursuit.value, Program.objectiveValue, dot_eq_sum (Or.inl h.objective.le)]
  change ∑ j ∈ range (ofProgram options program).columns.length,
    (ofProgram options program).objective.getD j 0 * x j = _
  rw [hwidth, sum_range_add, objective_ofProgram]
  have hslack : ∑ k ∈ range (program.constraints.length + 1),
      (program.objective ++ List.replicate (program.constraints.length + 1) 0).getD (program.columns + k) 0 *
        x (program.columns + k) = 0 := by
    refine sum_eq_zero fun k hk => ?_
    rw [List.getD_append_right _ _ _ _ (by rw [h.objective]; exact Nat.le_add_right _ _), h.objective,
      Nat.add_sub_cancel_left, List.getD_replicate _ (mem_range.1 hk), zero_mul]
  rw [hslack, add_zero]
  refine sum_congr rfl fun j hj => ?_
  have hj' := mem_range.1 hj
  rw [List.getD_append _ _ _ _ (by rwa [h.objective]), getD_structuralPart hj']

variable {s : Simplex ℚ}

theorem assignment_eq (h : Sound (ofProgram options program) costs s) :
    s.assignment = structuralPart program s.point := by
  have hstructural : s.structural = program.columns := h.retains.structural
  have hnodup : ((s.basic.zip s.values).map Prod.fst).Nodup := by
    rw [List.map_fst_zip (by rw [h.shaped.basic, h.shaped.values])]
    exact h.shaped.nodup_basic
  have hlength : s.assignment.length = program.columns := by
    rw [← hstructural]
    exact (length_foldl_set _ _).trans List.length_replicate
  refine Basis.ext_getD (by simp [hlength, structuralPart]) fun j hj => ?_
  rw [hlength] at hj
  rw [getD_structuralPart hj]
  have hzero : ∀ i, (List.replicate s.structural (0 : ℚ)).getD i 0 = 0 := fun i => by
    rw [List.getD_eq_getElem?_getD, List.getElem?_getD_replicate_default_eq]
  have hentry := getD_foldl_set hnodup (List.replicate s.structural 0) (fun pair _ => hzero pair.1)
    (j := j) (by rw [List.length_replicate, hstructural]; exact hj)
  rw [hzero, zero_add] at hentry
  exact hentry

theorem dot_assignment_objective (hprogram : program.WellFormed)
    (h : Sound (ofProgram options program) costs s) :
    dot s.assignment s.objective = program.objectiveValue s.assignment := by
  have hlength : s.assignment.length = program.columns := by
    rw [assignment_eq h, structuralPart, List.length_map, List.length_range]
  rw [h.retains.objective, objective_ofProgram, Program.objectiveValue, dot_comm program.objective,
    dot_eq_sum (Or.inl hlength.le), dot_eq_sum (Or.inl hlength.le)]
  refine sum_congr rfl fun j hj => ?_
  rw [List.getD_append _ _ _ _ (by rw [hprogram.objective]; exact mem_range.1 hj)]

variable (options) in
theorem value_point (hprogram : program.WellFormed) (h : Sound (ofProgram options program) costs s) :
    (pursuit (ofProgram options program) (ofProgram options program).objective).value s.point =
      dot s.assignment s.objective := by
  rw [value_objective options hprogram, ← assignment_eq h, dot_assignment_objective hprogram h]

theorem basicColumns_ofProgram : (ofProgram options program).basicColumns =
    Basis.unitColumns program.constraints.length := by
  refine (List.map_map).trans (List.map_congr_left fun i hi => ?_)
  exact column_slack options (List.mem_range.1 hi)

theorem sound_ofProgram (h : program.WellFormed) (etaLimit : ℕ) (bland : Bool) :
    Sound (ofProgram (.exact etaLimit bland) program) (ofProgram (.exact etaLimit bland) program).objective
      (ofProgram (.exact etaLimit bland) program) := by
  refine ⟨Options.isExact etaLimit bland, shaped_ofProgram h, .refl _, rfl, ?_, ?_⟩
  · rw [basicColumns_ofProgram]
    exact Basis.represents_identity _
  · rw [basicColumns_ofProgram]
    exact Basis.combination_unitColumns (List.length_map _)

end Satisfiability.Linear.Simplex
