import Mathlib.Algebra.BigOperators.Group.Finset.Sigma
import Mathlib.Algebra.Order.BigOperators.Group.Finset
import Satisfiability.Linear.Simplex
import Satisfiability.Proofs.Linear.Factorisation

/-!
# Bases

A basis keeps its shape under all operations, whatever the numbers are (`Basis.Shaped`), and then
both systems have some solution of the right length. For exact numbers a basis represents some
columns (`Basis.Represents`) if the solutions are right for the matrix with these columns. An eta
matrix replaces one of the columns by a combination of all (`Represents.pushEta`), and a basis that
represents some columns can be factorised again (`Represents.exists_refactor`).
-/

namespace Satisfiability.Linear.Basis

open Scalar

/-! ## Shape -/

section shape

variable {α : Type} [Scalar α] {negligible : α → Bool} {basis result : Basis α} {columns : List (List α)}
  {a c x : List α} {row : ℕ} {column : List α}

/-- The factors are triangles with the rows of a matrix in some order, and the eta matrices have as
many rows. -/
structure Shaped (basis : Basis α) : Prop where
  triangular : Triangular 0 basis.size basis.rows
  sources : (basis.rows.map FactorRow.source).Perm (List.range basis.size)
  etas : ∀ eta ∈ basis.etas, eta.row < basis.size ∧ eta.column.length = basis.size

omit [Scalar α] in
theorem Shaped.length_rows (h : basis.Shaped) : basis.rows.length = basis.size := h.triangular.length

omit [Scalar α] in
theorem Shaped.source_lt (h : basis.Shaped) {row : FactorRow α} (hmem : row ∈ basis.rows) :
    row.source < basis.size :=
  List.mem_range.1 (h.sources.subset (List.mem_map_of_mem hmem))

theorem triangular_identity (size : ℕ) : ∀ columns ≤ size, Triangular (size - columns) columns
    ((List.range' (size - columns) columns).map fun i =>
      (⟨i, List.replicate i zero, one :: List.replicate (size - 1 - i) zero⟩ : FactorRow α))
  | 0, _ => .nil
  | columns + 1, hle => by
    have hnext : size - (columns + 1) + 1 = size - columns := by omega
    rw [List.range'_succ, List.map_cons]
    refine .cons List.length_replicate ?_ (hnext ▸ triangular_identity size columns (by omega))
    rw [List.length_cons, List.length_replicate]
    omega

theorem shaped_identity (size : ℕ) : (identity size : Basis α).Shaped where
  triangular := by
    have h := triangular_identity (α := α) size size (Nat.le_refl _)
    rwa [Nat.sub_self, ← List.range_eq_range'] at h
  sources := by
    rw [identity, List.map_map]
    exact .of_eq (List.map_id _)
  etas := List.forall_mem_nil _

omit [Scalar α] in
theorem Shaped.pushEta (h : basis.Shaped) (hrow : row < basis.size)
    (hcolumn : column.length = basis.size) : (basis.pushEta row column).Shaped where
  triangular := h.triangular
  sources := h.sources
  etas := by
    intro eta hmem
    rcases List.mem_append.1 hmem with hmem | hmem
    · exact h.etas eta hmem
    · rw [List.mem_singleton.1 hmem]
      exact ⟨hrow, hcolumn⟩

theorem refactor_eq_ok (h : basis.refactor negligible columns = .ok result) :
    (columns.length = basis.size ∧ ∀ column ∈ columns, column.length = basis.size) ∧
      ∃ rows, factorise negligible basis.size (rowsOfColumns basis.size columns) = some rows ∧
        result = { basis with rows, etas := [] } := by
  unfold refactor at h
  split at h
  · cases h
  · rename_i hdimension
    rw [not_or, not_not] at hdimension
    split at h
    · cases h
    · rename_i rows hrows
      refine ⟨⟨hdimension.1, fun column hmem => ?_⟩, rows, hrows, (Except.ok.inj h).symm⟩
      by_contra hne
      exact hdimension.2 (List.any_eq_true.2 ⟨column, hmem, bne_iff_ne.2 hne⟩)

theorem uniform_rowsOfColumns (hcolumns : columns.length = basis.size) :
    Uniform 0 basis.size (rowsOfColumns basis.size columns) := by
  intro row hmem
  obtain ⟨i, -, rfl⟩ := List.mem_map.1 hmem
  exact ⟨rfl, (List.length_map _).trans hcolumns⟩

theorem shaped_refactor (h : basis.refactor negligible columns = .ok result) : result.Shaped := by
  obtain ⟨⟨hcolumns, -⟩, rows, hrows, rfl⟩ := refactor_eq_ok h
  obtain ⟨htriangular, hsources⟩ := triangular_factorise (uniform_rowsOfColumns hcolumns)
    (by rw [rowsOfColumns, List.length_map, List.length_range]) hrows
  refine ⟨htriangular, hsources.trans (.of_eq ?_), List.forall_mem_nil _⟩
  rw [rowsOfColumns, List.map_map]
  exact List.map_id _

theorem exists_applyEta (eta : Eta α) (hrow : eta.row < basis.size)
    (hcolumn : eta.column.length = basis.size) (ha : a.length = basis.size) :
    ∃ x, applyEta? a eta = some x ∧ x.length = basis.size := by
  rw [applyEta?, List.getElem?_eq_getElem (ha ▸ hrow), List.getElem?_eq_getElem (hcolumn ▸ hrow)]
  dsimp only
  rw [if_neg (by omega)]
  exact ⟨_, rfl, by simp [ha, hcolumn]⟩

theorem exists_applyEtaTransposed (eta : Eta α) (hrow : eta.row < basis.size)
    (hcolumn : eta.column.length = basis.size) (hc : c.length = basis.size) :
    ∃ x, applyEtaTransposed? eta c = some x ∧ x.length = basis.size := by
  rw [applyEtaTransposed?, List.getElem?_eq_getElem (hc ▸ hrow),
    List.getElem?_eq_getElem (hcolumn ▸ hrow)]
  exact ⟨_, rfl, by rw [List.length_set, hc]⟩

omit [Scalar α] in
theorem exists_foldlM {β : Type} {f : List α → β → Option (List α)} {n : ℕ} {items : List β}
    (hstep : ∀ b ∈ items, ∀ xs : List α, xs.length = n → ∃ ys, f xs b = some ys ∧ ys.length = n)
    {xs : List α} (hxs : xs.length = n) : ∃ ys, items.foldlM f xs = some ys ∧ ys.length = n := by
  induction items generalizing xs with
  | nil => exact ⟨xs, rfl, hxs⟩
  | cons b items ih =>
    obtain ⟨hfirst, hrest⟩ := List.forall_mem_cons.1 hstep
    obtain ⟨ys, hys, hlength⟩ := hfirst xs hxs
    rw [List.foldlM_cons, hys]
    exact ih hrest hlength

theorem Shaped.exists_forward (h : basis.Shaped) (ha : a.length = basis.size) :
    ∃ x, basis.forward? a = some x ∧ x.length = basis.size := by
  obtain ⟨z, hz, hlength⟩ := exists_solveLower [] fun row hmem => ha ▸ h.source_lt hmem
  rw [List.nil_append] at hz
  rw [forward?, solveFactors?, hz]
  refine exists_foldlM (fun eta hmem xs hxs => ?_) ((length_solveUpper hlength.symm).trans h.length_rows)
  exact exists_applyEta eta (h.etas eta hmem).1 (h.etas eta hmem).2 hxs

theorem Shaped.exists_backward (h : basis.Shaped) (hc : c.length = basis.size) :
    ∃ y, basis.backward? c = some y ∧ y.length = basis.size := by
  obtain ⟨w, hw, hlength⟩ := exists_foldlM
    (f := fun c eta => applyEtaTransposed? eta c) (fun eta (hmem : eta ∈ basis.etas.reverse) xs hxs =>
      exists_applyEtaTransposed eta (h.etas eta (List.mem_reverse.1 hmem)).1
        (h.etas eta (List.mem_reverse.1 hmem)).2 hxs) hc
  obtain ⟨s, hs, -⟩ := exists_solveUpperTransposed []
    (h.length_rows.trans hlength.symm)
  rw [backward?, hw, Option.bind_some, solveFactorsTransposed?, hs]
  refine ⟨_, rfl, ?_⟩
  have hfold : ∀ (pairs : List (FactorRow α × α)) (y : List α),
      (pairs.foldl (fun y pair => y.set pair.1.source pair.2) y).length = y.length := by
    intro pairs
    induction pairs with
    | nil => exact fun _ => rfl
    | cons pair pairs ih => exact fun y => (ih _).trans List.length_set
  exact (hfold _ _).trans List.length_replicate

end shape

/-! ## Combinations -/

variable {negligible : ℚ → Bool} {basis result : Basis ℚ} {columns : List (List ℚ)} {size row : ℕ}
  {a c d x y w : List ℚ}

def combination (size : ℕ) (columns : List (List ℚ)) (x : List ℚ) : List ℚ :=
  (List.range size).map fun i => dot (columns.map fun column => column.getD i 0) x

@[simp]
theorem length_combination : (combination size columns x).length = size := by
  rw [combination, List.length_map, List.length_range]

theorem getD_combination {i : ℕ} (hi : i < size) :
    (combination size columns x).getD i 0 = dot (columns.map fun column => column.getD i 0) x := by
  rw [combination, List.getD_eq_getElem?_getD, List.getElem?_map, List.getElem?_range hi]
  rfl

theorem ext_getD {xs ys : List ℚ} (hlength : xs.length = ys.length)
    (h : ∀ i < xs.length, xs.getD i 0 = ys.getD i 0) : xs = ys := by
  refine List.ext_getElem hlength fun i hi hi' => ?_
  have heq := h i hi
  rwa [List.getD_eq_getElem _ _ hi, List.getD_eq_getElem _ _ hi'] at heq

theorem dot_unit {j : ℕ} (hj : j < size) (xs : List ℚ) :
    dot (Simplex.unit size j one) xs = xs.getD j 0 := by
  rw [Simplex.unit, Scalar.dot_set (by rwa [List.length_replicate]), Scalar.zero_rat,
    Scalar.dot_replicate_zero, List.getD_replicate _ hj, Scalar.one_rat]
  ring

theorem combination_unit {j : ℕ} (hj : j < columns.length) (hheight : columns[j].length = size) :
    combination size columns (Simplex.unit columns.length j one) = columns[j] := by
  refine ext_getD (length_combination.trans hheight.symm) fun i hi => ?_
  rw [length_combination] at hi
  rw [getD_combination hi, Scalar.dot_comm, dot_unit hj, List.getD_eq_getElem _ _ (by rwa [List.length_map]),
    List.getElem_map]

theorem dot_combination (hheight : ∀ column ∈ columns, column.length ≤ size) (x y : List ℚ) :
    dot y (combination size columns x) = dot (columns.map (dot y)) x := by
  have hentry : ∀ i j, (columns.map fun column => column.getD i 0).getD j 0 =
      (columns.getD j []).getD i 0 := fun i j =>
    List.getD_map columns [] fun column : List ℚ => column.getD i 0
  have hproduct : ∀ j, (columns.map (dot y)).getD j 0 = dot y (columns.getD j []) := fun j => by
    rw [← List.getD_map columns [] (dot y), Scalar.dot_nil_right]
  rw [Scalar.dot_eq_sum (Or.inr length_combination.le), Scalar.dot_eq_sum (Or.inl (List.length_map _).le)]
  calc _ = ∑ i ∈ Finset.range size, ∑ j ∈ Finset.range columns.length,
        y.getD i 0 * (columns.getD j []).getD i 0 * x.getD j 0 := by
        refine Finset.sum_congr rfl fun i hi => ?_
        rw [getD_combination (Finset.mem_range.1 hi), Scalar.dot_eq_sum (Or.inl (List.length_map _).le),
          Finset.mul_sum]
        refine Finset.sum_congr rfl fun j _ => ?_
        rw [hentry]
        ring
    _ = ∑ j ∈ Finset.range columns.length, ∑ i ∈ Finset.range size,
        y.getD i 0 * (columns.getD j []).getD i 0 * x.getD j 0 := Finset.sum_comm
    _ = _ := by
        refine Finset.sum_congr rfl fun j hj => ?_
        have hlt := Finset.mem_range.1 hj
        have hlength : (columns.getD j []).length ≤ size := by
          rw [List.getD_eq_getElem _ _ hlt]
          exact hheight _ (List.getElem_mem hlt)
        rw [hproduct, Scalar.dot_eq_sum (Or.inr hlength), Finset.sum_mul]

theorem combination_set (hrow : row < columns.length) (column x : List ℚ) :
    combination size (columns.set row column) x = (List.range size).map fun i =>
      dot (columns.map fun column => column.getD i 0) x +
        (column.getD i 0 - columns[row].getD i 0) * x.getD row 0 := by
  refine List.map_congr_left fun i _ => ?_
  rw [List.map_set, Scalar.dot_set (by rwa [List.length_map]),
    List.getD_eq_getElem (columns.map _) _ (by rwa [List.length_map]), List.getElem_map]

/-! ## The matrix of a basis -/

/-- The solutions of both systems are right for the matrix with these columns. -/
structure Represents (basis : Basis ℚ) (columns : List (List ℚ)) : Prop where
  shaped : basis.Shaped
  width : columns.length = basis.size
  height : ∀ column ∈ columns, column.length = basis.size
  forward : ∀ {a x}, a.length = basis.size → basis.forward? a = some x →
    combination basis.size columns x = a
  backward : ∀ {c y}, c.length = basis.size → basis.backward? c = some y → columns.map (dot y) = c

theorem Represents.eq_zero (h : basis.Represents columns) (hx : x.length = basis.size)
    (hzero : ∀ entry ∈ combination basis.size columns x, entry = 0) : ∀ entry ∈ x, entry = 0 := by
  obtain ⟨y, hy, -⟩ := h.shaped.exists_backward hx
  have hsquare : dot x x = 0 := by
    calc dot x x = dot (columns.map (dot y)) x := by rw [h.backward hx hy]
      _ = dot y (combination basis.size columns x) :=
          (dot_combination (fun column hmem => (h.height column hmem).le) x y).symm
      _ = 0 := by
          rw [List.eq_replicate_of_mem hzero, Scalar.dot_comm, Scalar.dot_replicate_zero]
  rw [Scalar.dot_eq_sum (Or.inl (Nat.le_refl _)),
    Finset.sum_eq_zero_iff_of_nonneg fun i _ => mul_self_nonneg _] at hsquare
  intro entry hmem
  obtain ⟨i, hi, rfl⟩ := List.mem_iff_getElem.1 hmem
  have hentry := hsquare i (Finset.mem_range.2 hi)
  rwa [List.getD_eq_getElem _ _ hi, mul_self_eq_zero] at hentry

/-! ## Factors -/

theorem productValues_solveFactors (h : basis.Shaped) (hlead : ∀ row ∈ basis.rows, lead row ≠ 0)
    (ha : a.length = basis.size) (hx : basis.solveFactors? a = some x) :
    productValues [] basis.rows x = basis.rows.map fun row => (row.source, a.getD row.source 0) := by
  have hsources : ∀ row ∈ basis.rows, row.source < a.length := fun row hmem => ha ▸ h.source_lt hmem
  obtain ⟨z, hz, -⟩ := exists_solveLower [] hsources
  rw [solveFactors?, hz] at hx
  obtain rfl : solveUpper basis.rows z = x := Option.some.inj hx
  exact productValues_solve hlead hsources hz

/-- The product of the solution of the transposed system with a vector that the triangles take
another one to is the product of the right side with that one. -/
theorem dot_solveFactorsTransposed (h : basis.Shaped) (hlead : ∀ row ∈ basis.rows, lead row ≠ 0)
    (hw : w.length = basis.size) (hy : basis.solveFactorsTransposed? w = some y)
    (ha : a.length = basis.size) (hx : ∀ pair ∈ productValues [] basis.rows x, a.getD pair.1 0 = pair.2) :
    dot y a = dot w x := by
  obtain ⟨s, hs, hlength⟩ := exists_solveUpperTransposed [] (h.length_rows.trans hw.symm)
  have hlength' : basis.rows.length = s.length := by rw [hlength, List.length_nil, Nat.zero_add]
  set found := solveLowerTransposed 0 basis.rows s with hfound
  have hrows : found.map Prod.fst = basis.rows := map_fst_solveLowerTransposed hlength'
  set pairs := found.map fun entry => (entry.1.source, entry.2) with hpairs
  have hfst : pairs.map Prod.fst = basis.rows.map FactorRow.source := by
    rw [← hrows, hpairs, List.map_map, List.map_map]
    rfl
  obtain rfl : pairs.foldl (fun y pair => y.set pair.1 pair.2) (List.replicate basis.size 0) = y := by
    rw [solveFactorsTransposed?, hs] at hy
    rw [hpairs, List.foldl_map]
    exact Option.some.inj hy
  -- each row has its own place in the result, so writing them one after another loses nothing
  have hnodup : (pairs.map Prod.fst).Nodup := hfst ▸ h.sources.nodup_iff.2 List.nodup_range
  have hlt : ∀ pair ∈ pairs, pair.1 < basis.size := fun pair hmem => by
    have hsource := List.mem_map_of_mem (f := Prod.fst) hmem
    rw [hfst] at hsource
    exact List.mem_range.1 (h.sources.subset hsource)
  have hsnd : (productValues [] basis.rows x).map Prod.snd =
      found.map fun entry => a.getD entry.1.source 0 := by
    calc _ = ((productValues [] basis.rows x).map Prod.fst).map fun i => a.getD i 0 := by
          rw [List.map_map]
          exact List.map_congr_left fun pair hmem => (hx pair hmem).symm
      _ = _ := by
          rw [map_fst_productValues, ← hrows, List.map_map, List.map_map]
          rfl
  -- the lower triangle was solved last, so it is undone first
  have hlower : dot (found.map Prod.snd) ((productValues [] basis.rows x).map Prod.snd) =
      dot s (upperValues basis.rows x) + Scalar.sum (found.map fun entry => entry.2 * dot entry.1.lower []) :=
    dot_solveLowerTransposed [] hlength' x
  have hzero : Scalar.sum (found.map fun entry => entry.2 * dot entry.1.lower []) = 0 :=
    Scalar.sum_map_eq_zero fun _ _ => by rw [Scalar.dot_nil_right, mul_zero]
  obtain ⟨more, hmore, hupper⟩ := dot_solveUpperTransposed h.triangular hlead hw (List.forall_mem_nil _) hs
  obtain rfl : s = more := hmore
  calc _ = ∑ i ∈ Finset.range basis.size, a.getD i 0 * Scalar.spread pairs i := by
        rw [Scalar.dot_eq_sum (Or.inr ha.le)]
        refine Finset.sum_congr rfl fun i hi => ?_
        have hi' := Finset.mem_range.1 hi
        rw [Scalar.getD_foldl_set hnodup _ (fun pair hmem => List.getD_replicate _ (hlt pair hmem))
          (by rwa [List.length_replicate]), List.getD_replicate _ hi', zero_add, mul_comm]
    _ = dot (found.map Prod.snd) (found.map fun entry => a.getD entry.1.source 0) := by
        rw [Scalar.sum_mul_spread hlt, hpairs, List.map_map, Scalar.dot_map_map]
        exact congrArg Scalar.sum (List.map_congr_left fun entry _ => mul_comm _ _)
    _ = dot s (upperValues basis.rows x) := by
        rw [← hsnd, hlower, hzero, add_zero]
    _ = dot w x := by rw [← hupper x, List.map_nil, Scalar.sum_nil_rat, zero_add]

theorem represents_of_productValues (h : basis.Shaped) (hetas : basis.etas = [])
    (hwidth : columns.length = basis.size) (hheight : ∀ column ∈ columns, column.length = basis.size)
    (hlead : ∀ row ∈ basis.rows, lead row ≠ 0)
    (hvalues : ∀ x, (productValues [] basis.rows x).Perm ((List.range basis.size).map fun i =>
      (i, dot (columns.map fun column => column.getD i 0) x))) : basis.Represents columns where
  shaped := h
  width := hwidth
  height := hheight
  forward := by
    intro a x ha hx
    rw [forward?, hetas] at hx
    obtain ⟨x', hx', hpure⟩ := Option.bind_eq_some_iff.1 hx
    obtain rfl : x' = x := Option.some.inj hpure
    refine ext_getD (length_combination.trans ha.symm) fun i hi => ?_
    rw [length_combination] at hi
    have hmem := (hvalues x').symm.subset (List.mem_map_of_mem (List.mem_range.2 hi))
    rw [productValues_solveFactors h hlead ha hx'] at hmem
    obtain ⟨row, -, hrow⟩ := List.mem_map.1 hmem
    obtain ⟨rfl, hentry⟩ := Prod.mk.inj hrow
    rw [getD_combination hi, ← hentry]
  backward := by
    intro c y hc hy
    rw [backward?, hetas] at hy
    change (solveFactorsTransposed? basis c) = some y at hy
    refine ext_getD (by rw [List.length_map, hwidth, hc]) fun j hj => ?_
    rw [List.length_map] at hj
    -- a column is the combination of a unit vector, and `y` may be taken on any combination
    have hcolumn := combination_unit hj (hheight _ (List.getElem_mem hj))
    rw [List.getD_eq_getElem _ _ (by rwa [List.length_map]), List.getElem_map, ← hcolumn,
      dot_solveFactorsTransposed h hlead hc hy length_combination (x := Simplex.unit columns.length j one),
      Scalar.dot_comm, dot_unit hj]
    intro pair hmem
    obtain ⟨i, hi, rfl⟩ := List.mem_map.1 ((hvalues _).subset hmem)
    exact getD_combination (List.mem_range.1 hi)

theorem represents_refactor (hnonzero : ∀ x, negligible x = false → x ≠ 0)
    (h : basis.refactor negligible columns = .ok result) : result.Represents columns := by
  have hshaped := shaped_refactor h
  obtain ⟨⟨hwidth, hheight⟩, rows, hrows, rfl⟩ := refactor_eq_ok h
  refine represents_of_productValues hshaped rfl hwidth hheight (lead_ne_zero_of_factorise hnonzero hrows)
    fun x => ?_
  have hvalues := productValues_factorise [] hnonzero (uniform_rowsOfColumns hwidth)
    (by rw [rowsOfColumns, List.length_map, List.length_range]) hrows x
  rw [rowsOfColumns, List.map_map] at hvalues
  refine hvalues.trans (.of_eq (List.map_congr_left fun i _ => ?_))
  simp only [Function.comp_apply, Scalar.dot_nil_left, zero_add, Scalar.zero_rat]

theorem exists_refactor_of_eq_zero (hwidth : columns.length = basis.size)
    (hheight : ∀ column ∈ columns, column.length = basis.size) (hzero : ∀ x, negligible x = true → x = 0)
    (hkernel : ∀ x : List ℚ, x.length = basis.size →
      (∀ entry ∈ combination basis.size columns x, entry = 0) → ∀ entry ∈ x, entry = 0) :
    ∃ result, basis.refactor negligible columns = .ok result := by
  have hdimension : ¬ (columns.length ≠ basis.size ∨ columns.any (·.length != basis.size)) := by
    rw [not_or, not_not, List.any_eq_true]
    refine ⟨hwidth, ?_⟩
    rintro ⟨column, hmem, hne⟩
    exact bne_iff_ne.1 hne (hheight column hmem)
  rw [refactor, if_neg hdimension]
  cases hrows : factorise negligible basis.size (rowsOfColumns basis.size columns) with
  | some rows => exact ⟨_, rfl⟩
  | none =>
    obtain ⟨x, hx, ⟨entry, hmem, hne⟩, hrow⟩ := exists_kernel_of_factorise hzero
      (uniform_rowsOfColumns hwidth) (by rw [rowsOfColumns, List.length_map, List.length_range]) hrows
    refine absurd (hkernel x hx (fun value hvalue => ?_) entry hmem) hne
    obtain ⟨i, hi, rfl⟩ := List.mem_map.1 hvalue
    exact hrow _ (List.mem_map_of_mem hi)

/-- The columns that a basis represents can be factorised. -/
theorem Represents.exists_refactor (h : basis.Represents columns)
    (hzero : ∀ x, negligible x = true → x = 0) :
    ∃ result, basis.refactor negligible columns = .ok result :=
  exists_refactor_of_eq_zero h.width h.height hzero fun _ => h.eq_zero

/-! ## The identity -/

def unitColumns (size : ℕ) : List (List ℚ) := (List.range size).map fun i => Simplex.unit size i one

theorem getD_unit {i j : ℕ} (hj : j < size) :
    (Simplex.unit size i (one : ℚ)).getD j 0 = if i = j then 1 else 0 := by
  rw [Simplex.unit, List.getD_eq_getElem?_getD, List.getElem?_set]
  split
  · rename_i heq
    rw [if_pos (by rw [List.length_replicate, heq]; exact hj)]
    rfl
  · rw [List.getElem?_replicate, if_pos hj]
    rfl

theorem dot_unitColumns {i : ℕ} (hi : i < size) (x : List ℚ) :
    dot ((unitColumns size).map fun column => column.getD i 0) x = x.getD i 0 := by
  rw [← dot_unit hi]
  congr 1
  refine ext_getD (by simp [unitColumns, Simplex.unit]) fun j hj => ?_
  have hj' : j < size := by simpa [unitColumns] using hj
  rw [getD_unit hj', unitColumns, List.map_map, List.getD_eq_getElem?_getD, List.getElem?_map,
    List.getElem?_range hj', Option.map_some, Option.getD_some, Function.comp_apply, getD_unit hi]
  simp only [eq_comm]

theorem combination_unitColumns (hx : x.length = size) : combination size (unitColumns size) x = x := by
  refine ext_getD (length_combination.trans hx.symm) fun i hi => ?_
  rw [length_combination] at hi
  rw [getD_combination hi, dot_unitColumns hi]

theorem productValues_identity (size start number : ℕ) (found x : List ℚ) :
    productValues found ((List.range' start number).map fun i =>
        (⟨i, List.replicate i zero, one :: List.replicate (size - 1 - i) zero⟩ : FactorRow ℚ)) x =
      (List.range' start number).map fun i => (i, x.getD (i - start) 0) := by
  induction number generalizing start found x with
  | zero => rfl
  | succ number ih =>
    rw [List.range'_succ, List.map_cons, List.map_cons, productValues, ih]
    congr 1
    · rw [Scalar.zero_rat, Scalar.dot_replicate_zero, Scalar.dot_cons_left, Scalar.dot_replicate_zero,
        Scalar.one_rat, Nat.sub_self]
      cases x <;> simp
    · refine List.map_congr_left fun i hi => ?_
      obtain ⟨hle, -⟩ := List.mem_range'_1.1 hi
      rw [show i - start = i - (start + 1) + 1 by omega]
      cases x <;> simp

theorem represents_identity (size : ℕ) : (identity size).Represents (unitColumns size) := by
  refine represents_of_productValues (shaped_identity size) rfl (by simp [unitColumns, identity])
    (fun column hmem => ?_) (fun row hmem => ?_) fun x => .of_eq ?_
  · obtain ⟨i, -, rfl⟩ := List.mem_map.1 hmem
    rw [Simplex.unit, List.length_set, List.length_replicate]
    rfl
  · obtain ⟨i, -, rfl⟩ := List.mem_map.1 hmem
    exact one_ne_zero
  · have hvalues := productValues_identity size 0 size [] x
    rw [← List.range_eq_range'] at hvalues
    refine hvalues.trans (List.map_congr_left fun i hi => ?_)
    rw [dot_unitColumns (List.mem_range.1 hi), Nat.sub_zero]

/-! ## Eta matrices -/

theorem applyEta_eq (hx : x.length = size) (hd : d.length = size) (hrow : row < size) {x' : List ℚ}
    (h : applyEta? x ⟨row, d⟩ = some x') : x' = (List.zipWith (fun entry e =>
      entry - x.getD row 0 / d.getD row 0 * e) x d).set row (x.getD row 0 / d.getD row 0) := by
  have hx' : row < x.length := by rwa [hx]
  have hd' : row < d.length := by rwa [hd]
  rw [applyEta?, List.getElem?_eq_getElem hx', List.getElem?_eq_getElem hd'] at h
  dsimp only at h
  rw [if_neg (by omega), Option.some.injEq] at h
  rw [← h, List.getD_eq_getElem _ _ hx', List.getD_eq_getElem _ _ hd']
  congr 2
  funext entry e
  rw [mul_comm]

/-- The solution for an eta matrix combines the new columns to what the right side combines the old
ones to. -/
theorem combination_applyEta (hwidth : columns.length = size) (hx : x.length = size) (hd : d.length = size)
    (hrow : row < size) (hdiagonal : d.getD row 0 ≠ 0) {x' : List ℚ}
    (h : applyEta? x ⟨row, d⟩ = some x') :
    combination size (columns.set row (combination size columns d)) x' = combination size columns x := by
  rw [applyEta_eq hx hd hrow h]
  set pivot := x.getD row 0 / d.getD row 0 with hpivot
  set changed := List.zipWith (fun entry e => entry - pivot * e) x d with hchanged
  have hlength : changed.length = size := by simp [hchanged, hx, hd]
  have hzero : changed.getD row 0 = 0 := by
    have hcancel : pivot * d.getD row 0 = x.getD row 0 := div_mul_cancel₀ _ hdiagonal
    rw [hchanged, List.getD_eq_getElem _ _ (by rw [← hchanged, hlength]; exact hrow), List.getElem_zipWith,
      ← List.getD_eq_getElem _ 0, ← List.getD_eq_getElem _ 0, hcancel, sub_self]
  have hentry : (changed.set row pivot).getD row 0 = pivot := by
    rw [List.getD_eq_getElem _ _ (by rw [List.length_set, hlength]; exact hrow), List.getElem_set_self]
  rw [combination_set (by omega)]
  refine List.map_congr_left fun i hi => ?_
  rw [hentry, getD_combination (List.mem_range.1 hi), Scalar.dot_comm _ (changed.set row pivot),
    Scalar.dot_set (by rw [hlength]; exact hrow), hzero, hchanged, Scalar.dot_zipWith_sub (hx.trans hd.symm),
    List.getD_eq_getElem (columns.map _) _ (by rw [List.length_map]; omega), List.getElem_map,
    Scalar.dot_comm x, Scalar.dot_comm d]
  ring

theorem applyEtaTransposed_eq (hc : c.length = size) (hd : d.length = size) (hrow : row < size)
    {c' : List ℚ} (h : applyEtaTransposed? ⟨row, d⟩ c = some c') :
    c' = c.set row ((c.getD row 0 - (dot c d - c.getD row 0 * d.getD row 0)) / d.getD row 0) := by
  have hc' : row < c.length := by rwa [hc]
  have hd' : row < d.length := by rwa [hd]
  rw [applyEtaTransposed?, List.getElem?_eq_getElem hc', List.getElem?_eq_getElem hd'] at h
  dsimp only at h
  rw [Option.some.injEq, Scalar.sum_eraseIdx, List.getD_eq_getElem _ _ (by simp [hc', hd']),
    List.getElem_zipWith] at h
  rw [← h, List.getD_eq_getElem _ _ hc', List.getD_eq_getElem _ _ hd']
  rfl

/-- An eta matrix replaces a column by a combination of all columns in which it has a part. -/
theorem Represents.pushEta (h : basis.Represents columns) (hrow : row < basis.size)
    (hd : d.length = basis.size) (hdiagonal : d.getD row 0 ≠ 0) :
    (basis.pushEta row d).Represents (columns.set row (combination basis.size columns d)) where
  shaped := h.shaped.pushEta hrow hd
  width := (List.length_set).trans h.width
  height := by
    intro column hmem
    rcases List.mem_or_eq_of_mem_set hmem with hmem | rfl
    · exact h.height column hmem
    · exact length_combination
  forward := by
    intro a x ha hx
    obtain ⟨z, hz, hlength⟩ := h.shaped.exists_forward ha
    obtain ⟨x', hx', -⟩ := exists_applyEta ⟨row, d⟩ hrow hd hlength
    obtain rfl : x' = x := by
      unfold forward? at hz hx
      obtain ⟨z₀, hz₀, hetas⟩ := Option.bind_eq_some_iff.1 hz
      change (basis.solveFactors? a).bind
        (fun x => (basis.etas ++ [(⟨row, d⟩ : Eta ℚ)]).foldlM applyEta? x) = _ at hx
      rw [hz₀, Option.bind_some, List.foldlM_append, hetas] at hx
      change (applyEta? z ⟨row, d⟩).bind (fun x => some x) = _ at hx
      rw [hx'] at hx
      exact Option.some.inj hx
    exact (combination_applyEta h.width hlength hd hrow hdiagonal hx').trans (h.forward ha hz)
  backward := by
    intro c y hc hy
    obtain ⟨c', hc', hlength⟩ := exists_applyEtaTransposed ⟨row, d⟩ hrow hd hc
    have hy' : basis.backward? c' = some y := by
      unfold backward? at hy ⊢
      change Option.bind ((basis.etas ++ [(⟨row, d⟩ : Eta ℚ)]).reverse.foldlM _ c)
        basis.solveFactorsTransposed? = _ at hy
      rw [List.reverse_append, List.reverse_singleton, List.singleton_append, List.foldlM_cons, hc'] at hy
      exact hy
    have hproducts := h.backward hlength hy'
    -- only the product with the exchanged column is new, and the entry of the row is for it
    have hnew : dot y (combination basis.size columns d) = c.getD row 0 := by
      rw [dot_combination fun column hmem => (h.height column hmem).le, hproducts,
        applyEtaTransposed_eq hc hd hrow hc', Scalar.dot_set (by rwa [hc]), sub_mul,
        div_mul_cancel₀ _ hdiagonal]
      ring
    rw [List.map_set, hnew, hproducts, applyEtaTransposed_eq hc hd hrow hc', List.set_set,
      List.getD_eq_getElem _ _ (by rwa [hc])]
    exact List.set_getElem_self _

end Satisfiability.Linear.Basis
