import Satisfiability.Proofs.Linear.Integers
import Satisfiability.Proofs.Linear.Matrices
import Satisfiability.Proofs.Linear.Thresholds

/-!
# Determinants

Where all coefficients are whole numbers, the rates and the value at a vertex are whole numbers
divided by the determinant of the columns in the basis, by Cramer's rule (`Sound.det_mul_rate`,
`Sound.det_mul_value`). So none of them is between zero and the tolerance if all determinants are
below its inverse (`DeterminantsBelow`), and what has been taken for zero is not above it. Then
nothing is feasible if the answer says so (`not_feasible_of_shows`), and no value is above zero if
the greatest one is not above the tolerance (`objectiveValue_nonpos_of_shows`).
-/

namespace Satisfiability.Linear

open Scalar Finset Matrix

/-! ## Cramer's rule -/

/-- A whole number divided by the determinant is not between zero and the tolerance. -/
theorem nonpos_of_le_tolerance {det q bound tolerance : ℚ} (hdet : det ≠ 0) (hbound : |det| < bound)
    (hmem : det * q ∈ integers) (hle : q ≤ tolerance) (htolerance : tolerance * bound ≤ 1) : q ≤ 0 := by
  by_contra hpositive
  rw [not_le] at hpositive
  obtain ⟨n, hn⟩ := hmem
  have hn' : (n : ℚ) = det * q := hn
  have hone : 1 ≤ |det| * q := by
    have hne : n ≠ 0 := by
      rintro rfl
      exact mul_ne_zero hdet hpositive.ne' (hn'.symm.trans Int.cast_zero)
    rw [← abs_of_pos hpositive, ← abs_mul, ← hn', ← Int.cast_abs]
    exact_mod_cast Int.one_le_abs hne
  have hlt : |det| * q < bound * tolerance :=
    mul_lt_mul hbound hle hpositive ((abs_nonneg det).trans hbound.le)
  rw [mul_comm] at htolerance
  exact absurd (hlt.trans_le htolerance) (not_lt.2 hone)

theorem exists_map_intCast {n : ℕ} {B : Matrix (Fin n) (Fin n) ℚ} (hB : ∀ i k, B i k ∈ integers) :
    ∃ M : Matrix (Fin n) (Fin n) ℤ, M.map (Int.castRingHom ℚ) = B := by
  choose entries hentries using hB
  refine ⟨.of entries, ?_⟩
  ext i k
  exact hentries i k

theorem det_mem_integers {n : ℕ} {B : Matrix (Fin n) (Fin n) ℚ} (hB : ∀ i k, B i k ∈ integers) :
    B.det ∈ integers := by
  obtain ⟨M, rfl⟩ := exists_map_intCast hB
  exact ⟨M.det, (Int.castRingHom ℚ).map_det M⟩

/-- Cramer's rule: the solution of a system in whole numbers, times the determinant, is whole. -/
theorem det_mul_mem_integers {n : ℕ} {B : Matrix (Fin n) (Fin n) ℚ} {y : Fin n → ℚ}
    (hB : ∀ i k, B i k ∈ integers) (hy : ∀ k, (y ᵥ* B) k ∈ integers) (i : Fin n) :
    B.det * y i ∈ integers := by
  have hsolution : B.det • y = (y ᵥ* B) ᵥ* B.adjugate := by
    rw [vecMul_vecMul, mul_adjugate, vecMul_smul, vecMul_one]
  have hentry : B.det * y i = ∑ k, (y ᵥ* B) k * B.adjugate k i := congrFun hsolution i
  rw [hentry]
  refine sum_mem fun k _ => mul_mem (hy k) ?_
  obtain ⟨M, rfl⟩ := exists_map_intCast hB
  exact ⟨M.adjugate k i, congrFun (congrFun ((Int.castRingHom ℚ).map_adjugate M) k) i⟩

/-! ## Columns in whole numbers -/

namespace Simplex

variable {program : Program ℚ} {options : Options ℚ} {start s : Simplex ℚ} {costs a : List ℚ}

def matrix (s : Simplex ℚ) (size : ℕ) (columns : Fin size → ℕ) : Matrix (Fin size) (Fin size) ℚ :=
  .of fun i k => (s.column (columns k)).getD i 0

def basisMatrix (s : Simplex ℚ) : Matrix (Fin s.basis.size) (Fin s.basis.size) ℚ :=
  s.matrix s.basis.size fun k => s.basic.getD k 0

def Whole (s : Simplex ℚ) : Prop := ∀ j, ∀ x ∈ s.column j, x ∈ integers

theorem unit_mem_integers {size index : ℕ} {value : ℚ} (hvalue : value ∈ integers) :
    ∀ x ∈ unit size index value, x ∈ integers := by
  intro x hx
  rcases List.mem_or_eq_of_mem_set hx with hx | rfl
  · rw [List.eq_of_mem_replicate hx]
    exact zero_mem _
  · exact hvalue

theorem whole_ofProgram (h : program.Integral) : (ofProgram options program).Whole := by
  intro j
  have hcolumns : ∀ column ∈ (ofProgram options program).columns, ∀ x ∈ column, x ∈ integers := by
    intro column hcolumn
    rcases List.mem_append.1 hcolumn with hcolumn | hcolumn
    · rcases List.mem_append.1 hcolumn with hcolumn | hcolumn
      · obtain ⟨j, -, rfl⟩ := List.mem_map.1 hcolumn
        intro x hx
        obtain ⟨constraint, hconstraint, rfl⟩ := List.mem_map.1 hx
        dsimp only
        cases hfind : constraint.coefficients.find? fun term => term.1 == j with
        | none => exact zero_mem _
        | some term => exact h.coefficients constraint hconstraint term (List.mem_of_find?_eq_some hfind)
      · obtain ⟨i, -, rfl⟩ := List.mem_map.1 hcolumn
        exact unit_mem_integers (one_mem _)
    · rw [List.mem_singleton.1 hcolumn]
      intro x hx
      rw [List.eq_of_mem_replicate hx]
      exact neg_mem (one_mem _)
  rw [column, List.getD_eq_getElem?_getD]
  cases hcolumn : (ofProgram options program).columns[j]? with
  | none => exact List.forall_mem_nil _
  | some column => exact hcolumns column (List.mem_of_getElem? hcolumn)

/-! ## Vertices in whole numbers -/

theorem basisMatrix_apply (i k : Fin s.basis.size) (hk : (k : ℕ) < s.basic.length) :
    s.basisMatrix i k = (s.column s.basic[(k : ℕ)]).getD i 0 := by
  change (s.column (s.basic.getD k 0)).getD i 0 = _
  rw [List.getD_eq_getElem s.basic 0 hk]

theorem Sound.columnsOf_basisMatrix (h : Sound start costs s) :
    Basis.columnsOf s.basisMatrix = s.basicColumns := by
  have hwidth : s.basicColumns.length = s.basis.size := (List.length_map _).trans h.shaped.basic
  have hheight : ∀ column ∈ s.basicColumns, column.length = s.basis.size :=
    List.forall_mem_map.2 fun j hj => h.shaped.length_column (h.shaped.lt_of_basic hj)
  have hmatrix : s.basisMatrix = Basis.matrixOf s.basis.size s.basicColumns := by
    ext i k
    have hk : (k : ℕ) < s.basic.length := k.2.trans_eq h.shaped.basic.symm
    rw [basisMatrix_apply i k hk]
    show _ = (s.basicColumns.getD k []).getD i 0
    rw [List.getD_eq_getElem s.basicColumns [] (k.2.trans_eq hwidth.symm)]
    exact congrArg (·.getD i 0) (List.getElem_map s.column).symm
  rw [hmatrix, Basis.columnsOf_matrixOf hwidth hheight]

theorem Sound.det_ne_zero (h : Sound start costs s) : s.basisMatrix.det ≠ 0 :=
  Basis.Represents.det_ne_zero (h.columnsOf_basisMatrix.symm ▸ h.represents)

section whole

variable (h : Sound start costs s) (hwhole : start.Whole) (hcosts : ∀ x ∈ costs, x ∈ integers)

include h hwhole

theorem Sound.basisMatrix_mem_integers (i k : Fin s.basis.size) : s.basisMatrix i k ∈ integers := by
  rw [basisMatrix_apply i k (k.2.trans_eq h.shaped.basic.symm), h.retains.column]
  exact getD_mem_integers (hwhole _) _

include hcosts

/-- Times the determinant of the basis, the product of the prices with whole numbers is whole. -/
theorem Sound.det_mul_dot_prices (hlength : a.length ≤ s.basis.size) (ha : ∀ x ∈ a, x ∈ integers) :
    s.basisMatrix.det * dot s.prices a ∈ integers := by
  rw [dot_eq_sum (Or.inr hlength), Finset.sum_range, mul_sum]
  refine sum_mem fun i _ => ?_
  rw [← mul_assoc]
  refine mul_mem (det_mul_mem_integers (y := fun i => s.prices.getD i 0)
    (h.basisMatrix_mem_integers hwhole) (fun k => ?_) i) (getD_mem_integers ha _)
  -- the product with a column in the basis is its cost
  have hk : (k : ℕ) < s.basic.length := k.2.trans_eq h.shaped.basic.symm
  have hbasic : s.basic[(k : ℕ)] ∈ s.basic := List.getElem_mem hk
  have hproduct := sub_eq_zero.1 (h.rate_eq_zero hbasic)
  rw [h.costs, dot_eq_sum (Or.inr (h.shaped.length_column (h.shaped.lt_of_basic hbasic)).le),
    Finset.sum_range] at hproduct
  have hcost : ((fun i : Fin s.basis.size => s.prices.getD i 0) ᵥ* s.basisMatrix) k =
      costs.getD s.basic[(k : ℕ)] 0 := by
    rw [hproduct]
    change ∑ i : Fin s.basis.size, s.prices.getD i 0 * s.basisMatrix i k = _
    refine sum_congr rfl fun i _ => ?_
    rw [basisMatrix_apply i k hk]
  rw [hcost]
  exact getD_mem_integers hcosts _

theorem Sound.det_mul_rate {j : ℕ} (hj : j < s.columns.length) :
    s.basisMatrix.det * s.rate j ∈ integers := by
  rw [rate, mul_sub, h.costs]
  refine sub_mem (mul_mem (det_mem_integers (h.basisMatrix_mem_integers hwhole)) ?_)
    (h.det_mul_dot_prices hwhole hcosts (h.shaped.length_column hj).le ?_)
  · exact getD_mem_integers hcosts j
  · rw [h.retains.column]
    exact hwhole j

theorem Sound.det_mul_value (hvalues : ∀ x ∈ start.values, x ∈ integers) :
    s.basisMatrix.det * (pursuit start costs).value s.point ∈ integers := by
  have hlength : start.values.length = s.basis.size := by rw [← h.solves, Basis.length_combination]
  have hbase := h.vertex.base_eq
  change dot s.prices start.values = (pursuit start costs).value s.point at hbase
  rw [← hbase]
  exact h.det_mul_dot_prices hwhole hcosts hlength.le hvalues

end whole

/-! ## What an answer up to the tolerance shows -/

/-- No square matrix with columns of the method has a determinant of this magnitude or above. -/
def DeterminantsBelow (s : Simplex ℚ) (bound : ℚ) : Prop :=
  ∀ columns : Fin s.basis.size → ℕ, |(s.matrix s.basis.size columns).det| < bound

theorem Sound.abs_det_lt (h : Sound start costs s) {bound : ℚ} (hbound : start.DeterminantsBelow bound) :
    |s.basisMatrix.det| < bound := by
  have hmatrix : s.matrix = start.matrix := by
    funext size columns
    rw [matrix, matrix, h.retains.column]
  rw [DeterminantsBelow, ← h.retains.size, ← hmatrix] at hbound
  exact hbound _

section shows

variable {bound : ℚ} (hprogram : program.WellFormed) (hintegral : program.Integral)
  (hstart : start = ofProgram options program) (hoptions : start.options.NonNegative)
  (hbound : start.DeterminantsBelow bound) (htolerance : start.options.feasibilityTolerance * bound ≤ 1)

include hintegral hstart hbound htolerance

theorem Consistent.rate_nonpos (h : Consistent start costs s) (hcosts : ∀ x ∈ costs, x ∈ integers)
    {withAuxiliary : Bool} (hrest : AtRest start withAuxiliary s) :
    ∀ j < start.columns.length, Allowed start withAuxiliary j → s.rate j ≤ 0 := by
  have hwhole : start.Whole := by
    rw [hstart]
    exact whole_ofProgram hintegral
  intro j hj hallowed
  have hj' : j < s.columns.length := h.sound.retains.columns.symm ▸ hj
  exact nonpos_of_le_tolerance h.sound.det_ne_zero (h.sound.abs_det_lt hbound)
    (h.sound.det_mul_rate hwhole hcosts hj') (hrest j hj hallowed) htolerance

include hprogram

/-- If there is to be no feasible assignment, there is none. -/
theorem not_feasible_of_shows (hoptions : start.options.NonNegative) (h : Shows start s .infeasible)
    (assignment : List ℚ) : ¬ program.Feasible assignment := by
  obtain ⟨hconsistent, hrest, hexceeds⟩ := h
  have hrate := hconsistent.rate_nonpos hintegral hstart hbound htolerance
    (unit_mem_integers (neg_mem (one_mem _))) hrest
  exact not_feasible_of_auxiliary hprogram (congrArg withoutThresholds hstart) hconsistent.sound
    (fun j hj => hrate j hj (Or.inl rfl)) (lt_of_le_of_lt hoptions.feasibilityTolerance hexceeds) assignment

/-- If the greatest value is not to be above the tolerance, no value is above zero. -/
theorem objectiveValue_nonpos_of_shows {objective : ℚ} {assignment : List ℚ}
    (h : Shows start s (.optimal assignment objective))
    (hle : objective ≤ start.options.feasibilityTolerance) {x : List ℚ} (hx : program.Feasible x) :
    program.objectiveValue x ≤ 0 := by
  obtain ⟨hconsistent, hrest, rfl⟩ := h
  have hstart' := congrArg withoutThresholds hstart
  have hwhole : start.Whole := by
    rw [hstart]
    exact whole_ofProgram hintegral
  have hcosts : ∀ x ∈ start.objective, x ∈ integers := by
    rw [hstart]
    refine List.forall_mem_append.2 ⟨hintegral.objective, fun x hx => ?_⟩
    rw [List.eq_of_mem_replicate hx]
    exact zero_mem _
  have hvalues : ∀ x ∈ start.values, x ∈ integers := by
    rw [hstart]
    intro x hx
    obtain ⟨constraint, hconstraint, rfl⟩ := List.mem_map.1 hx
    exact hintegral.bounds constraint hconstraint
  have hvalue : (pursuit start start.objective).value s.point = dot s.assignment s.objective := by
    subst hstart
    have hsound : Sound (ofProgram (.exact 0 false) program) _ s.withoutThresholds := hconsistent.sound
    have hpoint := value_point _ hprogram hsound
    exact hpoint
  -- a positive value within the tolerance would need a greater determinant
  have hmem := hconsistent.sound.det_mul_value hwhole hcosts hvalues
  have hnonpos := nonpos_of_le_tolerance hconsistent.sound.det_ne_zero
    (hconsistent.sound.abs_det_lt hbound) hmem (hvalue.trans_le hle) htolerance
  have hrate := hconsistent.rate_nonpos hintegral hstart hbound htolerance hcosts hrest
  exact (hconsistent.sound.objectiveValue_le hprogram hstart' hrate x hx).trans (hvalue.symm.trans_le hnonpos)

end shows

end Simplex

end Satisfiability.Linear
