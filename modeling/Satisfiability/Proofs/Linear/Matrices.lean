import Mathlib.LinearAlgebra.Matrix.RowCol
import Mathlib.LinearAlgebra.Matrix.ToLinearEquiv
import Satisfiability.Proofs.Linear.Basis
import Satisfiability.Proofs.Step

/-!
# Matrices of bases

Requests to a basis of a size lead to a matrix: the identity at first, then the one last factorised,
and its products with the eta matrices that came later (`Basis.Reached`). The basis represents the
columns of that matrix all the time (`Reached.represents`), so that the matrix is invertible and the
solutions that the basis gives are the only ones (`Represents.exists_mulVec`,
`Represents.exists_vecMul`). A matrix is factorised exactly if its determinant is not zero
(`exists_refactor_iff`).
-/

namespace Satisfiability.Linear.Basis

open Scalar Finset Matrix Step

variable {size : ℕ} {basis next : Basis ℚ} {B : Matrix (Fin size) (Fin size) ℚ} {columns : List (List ℚ)}

/-! ## Lists of columns -/

def columnsOf (B : Matrix (Fin size) (Fin size) ℚ) : List (List ℚ) :=
  .ofFn fun j => .ofFn fun i => B i j

/-- The matrix with some columns. Entries that are not there are zero. -/
def matrixOf (size : ℕ) (columns : List (List ℚ)) : Matrix (Fin size) (Fin size) ℚ :=
  .of fun i j => (columns.getD j []).getD i 0

@[simp]
theorem length_columnsOf (B : Matrix (Fin size) (Fin size) ℚ) : (columnsOf B).length = size :=
  List.length_ofFn

theorem getElem_columnsOf {j : ℕ} (hj : j < (columnsOf B).length) :
    (columnsOf B)[j] = List.ofFn fun i => B i ⟨j, hj.trans_eq (length_columnsOf B)⟩ :=
  List.getElem_ofFn hj

theorem exists_ofFn {xs : List ℚ} (h : xs.length = size) : ∃ x : Fin size → ℚ, List.ofFn x = xs := by
  subst h
  exact ⟨xs.get, List.ofFn_get xs⟩

theorem getD_ofFn (x : Fin size → ℚ) (i : Fin size) : (List.ofFn x).getD i 0 = x i := by
  rw [List.getD_eq_getElem _ _ (i.2.trans_eq List.length_ofFn.symm), List.getElem_ofFn]

theorem dot_ofFn (xs : List ℚ) (y : Fin size → ℚ) :
    dot xs (List.ofFn y) = ∑ i : Fin size, xs.getD i 0 * y i := by
  rw [dot_eq_sum (Or.inr List.length_ofFn.le), Finset.sum_range]
  exact sum_congr rfl fun i _ => by rw [getD_ofFn]

theorem columnsOf_matrixOf (hwidth : columns.length = size)
    (hheight : ∀ column ∈ columns, column.length = size) : columnsOf (matrixOf size columns) = columns := by
  refine List.ext_getElem ((length_columnsOf _).trans hwidth.symm) fun j hj hj' => ?_
  have hlength : columns[j].length = size := hheight _ (List.getElem_mem hj')
  rw [getElem_columnsOf]
  refine List.ext_getElem (List.length_ofFn.trans hlength.symm) fun i hi hi' => ?_
  rw [List.getElem_ofFn]
  show (columns.getD j []).getD i 0 = _
  rw [List.getD_eq_getElem columns _ hj', List.getD_eq_getElem _ _ hi']

theorem combination_columnsOf (B : Matrix (Fin size) (Fin size) ℚ) (x : Fin size → ℚ) :
    combination size (columnsOf B) (List.ofFn x) = List.ofFn (B *ᵥ x) := by
  refine ext_getD (length_combination.trans List.length_ofFn.symm) fun i hi => ?_
  rw [length_combination] at hi
  rw [getD_combination hi, dot_ofFn, getD_ofFn (B *ᵥ x) ⟨i, hi⟩]
  refine sum_congr rfl fun j _ => ?_
  have hj : (j : ℕ) < (columnsOf B).length := j.2.trans_eq (length_columnsOf B).symm
  rw [List.getD_eq_getElem _ _ (by rwa [List.length_map]), List.getElem_map, getElem_columnsOf,
    getD_ofFn (fun i => B i j) ⟨i, hi⟩]

theorem map_dot_columnsOf (B : Matrix (Fin size) (Fin size) ℚ) (y : Fin size → ℚ) :
    (columnsOf B).map (dot (List.ofFn y)) = List.ofFn (y ᵥ* B) := by
  rw [columnsOf, List.map_ofFn]
  congr 1
  funext j
  rw [Function.comp_apply, dot_ofFn]
  exact sum_congr rfl fun i _ => by rw [getD_ofFn]

theorem set_columnsOf (B : Matrix (Fin size) (Fin size) ℚ) (row : Fin size) (column : Fin size → ℚ) :
    (columnsOf B).set row (List.ofFn column) = columnsOf (B.updateCol row column) := by
  refine List.ext_getElem (by rw [List.length_set, length_columnsOf, length_columnsOf]) fun j hj hj' => ?_
  rw [List.getElem_set, getElem_columnsOf, getElem_columnsOf]
  split
  · rename_i hrow
    subst hrow
    exact congrArg List.ofFn (funext fun i => updateCol_self.symm)
  · rename_i hrow
    have hne : (⟨j, hj'.trans_eq (length_columnsOf _)⟩ : Fin size) ≠ row := fun heq => hrow (heq ▸ rfl)
    exact congrArg List.ofFn (funext fun i => (updateCol_ne hne).symm)

theorem unitColumns_eq (size : ℕ) : unitColumns size = columnsOf (1 : Matrix (Fin size) (Fin size) ℚ) := by
  refine List.ext_getElem (by simp [unitColumns]) fun j hj hj' => ?_
  rw [getElem_columnsOf]
  simp only [unitColumns, List.getElem_map, List.getElem_range]
  rw [length_columnsOf] at hj'
  refine ext_getD (by simp [Simplex.unit]) fun i hi => ?_
  have hi' : i < size := by simpa [Simplex.unit] using hi
  rw [getD_unit hi', getD_ofFn _ ⟨i, hi'⟩, one_apply]
  simp [eq_comm]

/-! ## Represented matrices -/

theorem Represents.size_eq (h : basis.Represents (columnsOf B)) : basis.size = size :=
  h.width.symm.trans (length_columnsOf B)

section represents

variable (h : basis.Represents (columnsOf B))

include h

theorem Represents.exists_forward_mulVec (a : Fin size → ℚ) :
    ∃ x : Fin size → ℚ, basis.forward? (List.ofFn a) = some (List.ofFn x) ∧ B *ᵥ x = a := by
  have hlength : (List.ofFn a).length = basis.size := List.length_ofFn.trans h.size_eq.symm
  obtain ⟨xs, hxs, hsize⟩ := h.shaped.exists_forward hlength
  obtain ⟨x, rfl⟩ := exists_ofFn (hsize.trans h.size_eq)
  have hcombination := h.forward hlength hxs
  rw [h.size_eq, combination_columnsOf] at hcombination
  exact ⟨x, hxs, List.ofFn_injective hcombination⟩

theorem Represents.exists_backward_vecMul (c : Fin size → ℚ) :
    ∃ y : Fin size → ℚ, basis.backward? (List.ofFn c) = some (List.ofFn y) ∧ y ᵥ* B = c := by
  have hlength : (List.ofFn c).length = basis.size := List.length_ofFn.trans h.size_eq.symm
  obtain ⟨ys, hys, hsize⟩ := h.shaped.exists_backward hlength
  obtain ⟨y, rfl⟩ := exists_ofFn (hsize.trans h.size_eq)
  have hproducts := h.backward hlength hys
  rw [map_dot_columnsOf] at hproducts
  exact ⟨y, hys, List.ofFn_injective hproducts⟩

theorem Represents.isUnit : IsUnit B :=
  mulVec_surjective_iff_isUnit.1 fun a =>
    let ⟨x, _, hx⟩ := h.exists_forward_mulVec a
    ⟨x, hx⟩

theorem Represents.det_ne_zero : B.det ≠ 0 := ((isUnit_iff_isUnit_det B).1 h.isUnit).ne_zero

theorem Represents.exists_mulVec (a : Fin size → ℚ) :
    ∃ x : Fin size → ℚ, basis.forward? (List.ofFn a) = some (List.ofFn x) ∧ ∀ v, B *ᵥ v = a ↔ v = x := by
  obtain ⟨x, hforward, hx⟩ := h.exists_forward_mulVec a
  refine ⟨x, hforward, fun v => ⟨fun hv => ?_, fun hv => hv ▸ hx⟩⟩
  exact mulVec_injective_of_isUnit h.isUnit (hv.trans hx.symm)

/-- The solution of the second system is the only one. -/
theorem Represents.exists_vecMul (c : Fin size → ℚ) :
    ∃ y : Fin size → ℚ, basis.backward? (List.ofFn c) = some (List.ofFn y) ∧ ∀ v, v ᵥ* B = c ↔ v = y := by
  obtain ⟨y, hbackward, hy⟩ := h.exists_backward_vecMul c
  refine ⟨y, hbackward, fun v => ⟨fun hv => ?_, fun hv => hv ▸ hy⟩⟩
  exact vecMul_injective_of_isUnit h.isUnit (hv.trans hy.symm)

end represents

/-! ## Eta matrices -/

def etaMatrix (row : Fin size) (d : Fin size → ℚ) : Matrix (Fin size) (Fin size) ℚ :=
  (1 : Matrix (Fin size) (Fin size) ℚ).updateCol row d

theorem mul_etaMatrix (B : Matrix (Fin size) (Fin size) ℚ) (row : Fin size) (d : Fin size → ℚ) :
    B * etaMatrix row d = B.updateCol row (B *ᵥ d) := by
  rw [etaMatrix, mul_updateCol, Matrix.mul_one]

theorem Represents.pushEtaMatrix (h : basis.Represents (columnsOf B)) (row : Fin size) {d : Fin size → ℚ}
    (hd : d row ≠ 0) : (basis.pushEta row (List.ofFn d)).Represents (columnsOf (B * etaMatrix row d)) := by
  have hlength : (List.ofFn d).length = basis.size := List.length_ofFn.trans h.size_eq.symm
  have hrow : (row : ℕ) < basis.size := row.2.trans_eq h.size_eq.symm
  have hpushed := h.pushEta hrow hlength (by rwa [getD_ofFn])
  rw [h.size_eq, combination_columnsOf, set_columnsOf] at hpushed
  rwa [mul_etaMatrix]

/-! ## Factorised matrices -/

/-- A matrix is factorised exactly if it is square, of the size of the basis, and not singular. -/
theorem exists_refactor_iff {negligible : ℚ → Bool} (hnegligible : ∀ x, negligible x = true ↔ x = 0) :
    (∃ next, basis.refactor negligible columns = .ok next) ↔
      columns.length = basis.size ∧ (∀ column ∈ columns, column.length = basis.size) ∧
        (matrixOf basis.size columns).det ≠ 0 := by
  have hnonzero : ∀ x, negligible x = false → x ≠ 0 := fun x hfalse hzero =>
    Bool.false_ne_true (hfalse.symm.trans ((hnegligible x).2 hzero))
  constructor
  · rintro ⟨next, hnext⟩
    obtain ⟨⟨hwidth, hheight⟩, -⟩ := refactor_eq_ok hnext
    have hrepresents := represents_refactor hnonzero hnext
    rw [← columnsOf_matrixOf hwidth hheight] at hrepresents
    exact ⟨hwidth, hheight, hrepresents.det_ne_zero⟩
  · rintro ⟨hwidth, hheight, hdet⟩
    refine exists_refactor_of_eq_zero hwidth hheight (fun x => (hnegligible x).1) fun x hx hzero => ?_
    -- the vector is taken to zero by the matrix
    obtain ⟨v, rfl⟩ := exists_ofFn hx
    rw [← columnsOf_matrixOf hwidth hheight, combination_columnsOf] at hzero
    have hproduct : matrixOf basis.size columns *ᵥ v = 0 :=
      funext fun i => hzero _ (List.mem_ofFn.2 ⟨i, rfl⟩)
    have hv : v = 0 := by
      by_contra hne
      exact hdet (exists_mulVec_eq_zero_iff.1 ⟨v, hne, hproduct⟩)
    intro entry hentry
    obtain ⟨i, rfl⟩ := List.mem_ofFn.1 hentry
    rw [hv, Pi.zero_apply]

/-! ## Requests -/

def refactorInPlace {α : Type} [Scalar α] (negligible : α → Bool) (columns : List (List α)) :
    Step (Basis α) Unit := do
  let basis ← get
  match basis.refactor negligible columns with
  | .ok next => set next
  | .error cause => throw (.simplex cause)

/-- What a request to factorise a matrix ends in. A refused one leaves the basis as it is. -/
theorem refactorInPlace_ends (negligible : ℚ → Bool) (columns : List (List ℚ)) (basis : Basis ℚ) :
    Ends (refactorInPlace negligible columns) basis
      (fun _ next => basis.refactor negligible columns = .ok next)
      fun _ next => next = basis ∧ ∃ cause, basis.refactor negligible columns = .error cause := by
  rw [refactorInPlace, ends_bind, ends_get]
  split
  · rename_i next hnext
    exact hnext
  · rename_i cause hcause
    exact ⟨rfl, cause, hcause⟩

/-- The bases that requests lead to from the identity, each with its matrix. -/
inductive Reached (size : ℕ) : Basis ℚ → Matrix (Fin size) (Fin size) ℚ → Prop
  | identity : Reached size (identity size) 1
  | refactored {basis next : Basis ℚ} {B : Matrix (Fin size) (Fin size) ℚ} {columns : List (List ℚ)}
    (hreached : Reached size basis B)
    (hrun : (refactorInPlace (· == 0) columns).run.run basis = (.ok (), next)) :
    Reached size next (matrixOf size columns)
  | refused {basis next : Basis ℚ} {B : Matrix (Fin size) (Fin size) ℚ} {columns : List (List ℚ)}
    {fault : Fault} (hreached : Reached size basis B)
    (hrun : (refactorInPlace (· == 0) columns).run.run basis = (.error fault, next)) :
    Reached size next B
  | pushed {basis : Basis ℚ} {B : Matrix (Fin size) (Fin size) ℚ} (hreached : Reached size basis B)
    (row : Fin size) (d : Fin size → ℚ) (hd : d row ≠ 0) :
    Reached size (basis.pushEta row (List.ofFn d)) (B * etaMatrix row d)

theorem exists_run_iff : (∃ next, (refactorInPlace (· == 0) columns).run.run basis = (.ok (), next)) ↔
    ∃ next, basis.refactor (· == 0) columns = .ok next := by
  have hends := refactorInPlace_ends (· == 0) columns basis
  constructor
  · rintro ⟨next, hrun⟩
    have hnext := ends_ok hends hrun
    exact ⟨next, hnext⟩
  · rintro ⟨next, hnext⟩
    rcases hrun : (refactorInPlace (· == 0) columns).run.run basis with ⟨fault | _, found⟩
    · obtain ⟨-, cause, hcause⟩ := ends_error hends hrun
      cases hnext.symm.trans hcause
    · exact ⟨found, rfl⟩

/-- A basis that requests lead to represents its matrix. -/
theorem Reached.represents (h : Reached size basis B) : basis.Represents (columnsOf B) := by
  induction h with
  | identity => exact unitColumns_eq size ▸ represents_identity size
  | refactored _ hrun ih =>
    have hnext := ends_ok (refactorInPlace_ends _ _ _) hrun
    obtain ⟨⟨hwidth, hheight⟩, -⟩ := refactor_eq_ok hnext
    rw [ih.size_eq] at hwidth hheight
    rw [columnsOf_matrixOf hwidth hheight]
    exact represents_refactor (fun x hx => by simpa using hx) hnext
  | refused _ hrun ih => exact (ends_error (refactorInPlace_ends _ _ _) hrun).1 ▸ ih
  | pushed _ row d hd ih => exact ih.pushEtaMatrix row hd

/-- Whatever requests were made, the basis gives the only solutions of both systems of its matrix,
an eta matrix for a solution replaces a column by the right side, and a matrix is factorised exactly
if it is square and not singular, where the basis stays as it is if it is not. -/
theorem Reached.solves_and_updates (h : Reached size basis B) :
    (∀ a : Fin size → ℚ, ∃ x : Fin size → ℚ, basis.forward? (List.ofFn a) = some (List.ofFn x) ∧
      ∀ v, B *ᵥ v = a ↔ v = x) ∧
    (∀ c : Fin size → ℚ, ∃ y : Fin size → ℚ, basis.backward? (List.ofFn c) = some (List.ofFn y) ∧
      ∀ v, v ᵥ* B = c ↔ v = y) ∧
    (∀ (row : Fin size) (column d : Fin size → ℚ), basis.forward? (List.ofFn column) = some (List.ofFn d) →
      B * etaMatrix row d = B.updateCol row column) ∧
    (∀ columns, (∃ next, (refactorInPlace (· == 0) columns).run.run basis = (.ok (), next)) ↔
      columns.length = size ∧ (∀ column ∈ columns, column.length = size) ∧
        (matrixOf size columns).det ≠ 0) ∧
    ∀ columns fault next, (refactorInPlace (· == 0) columns).run.run basis = (.error fault, next) →
      next = basis := by
  have hrepresents := h.represents
  refine ⟨hrepresents.exists_mulVec, hrepresents.exists_vecMul, fun row column d hforward => ?_,
    fun columns => ?_,
    fun columns fault next hrun => (ends_error (refactorInPlace_ends _ _ _) hrun).1⟩
  · -- the vector is the solution, so that the product with it is the right side
    obtain ⟨x, hx, hsolves⟩ := hrepresents.exists_mulVec column
    obtain rfl : d = x := List.ofFn_injective (Option.some.inj (hforward.symm.trans hx))
    rw [mul_etaMatrix, (hsolves d).2 rfl]
  · rw [exists_run_iff, exists_refactor_iff (fun x => beq_iff_eq), hrepresents.size_eq]

/-- Two rows have to change places to factorise this matrix. Then an eta matrix comes, and another
matrix is refused. -/
theorem Reached.solves_and_updates_swapped :
    ∃ basis : Basis ℚ, Reached 2 basis (matrixOf 2 [[0, 2], [3, 1]] * etaMatrix 1 ![4, 5]) ∧
      ∃ x : Fin 2 → ℚ, basis.forward? [15, 13] = some (List.ofFn x) ∧
        ∀ v, (matrixOf 2 [[0, 2], [3, 1]] * etaMatrix 1 ![4, 5]) *ᵥ v = ![15, 13] ↔ v = x := by
  have hdet : (matrixOf 2 [[0, 2], [3, 1]]).det ≠ 0 := by
    rw [det_fin_two]
    norm_num [matrixOf]
  obtain ⟨basis, hrun⟩ := (Reached.solves_and_updates .identity).2.2.2.1 [[0, 2], [3, 1]] |>.2
    ⟨rfl, by decide, hdet⟩
  have hreached : Reached 2 (basis.pushEta 1 (List.ofFn ![4, 5])) _ :=
    .pushed (.refactored .identity hrun) 1 ![4, 5] (by decide)
  exact ⟨_, hreached, hreached.solves_and_updates.1 ![15, 13]⟩

end Satisfiability.Linear.Basis
