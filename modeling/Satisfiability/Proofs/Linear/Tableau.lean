import Satisfiability.Proofs.Linear.Shape
import Satisfiability.Proofs.Linear.Vertex

/-!
# The method with exact numbers

With exact numbers the basis represents the columns in it, and the values solve the equations of the
program (`Simplex.Sound`). Then the method stands at a vertex (`Sound.vertex`), and the solution for
a column is a direction from it (`Sound.leads`). Any pivot on an entry other than zero leads to
another sound state (`Sound.pivot`).
-/

namespace Satisfiability.Linear

/-- Every threshold is zero, and there is no limit. -/
structure Options.IsExact (options : Options ℚ) : Prop where
  negligible : options.negligible = fun x => x == 0
  ratioThreshold : options.ratioThreshold = 0
  pivotTolerance : options.pivotTolerance = 0
  feasibilityTolerance : options.feasibilityTolerance = 0
  iterationLimit : options.iterationLimit = none

theorem Options.isExact (etaLimit : ℕ) (bland : Bool) : (Options.exact etaLimit bland).IsExact :=
  ⟨rfl, rfl, rfl, rfl, rfl⟩

namespace Simplex

open Scalar Step Finset Pursuit


/-- What is pursued: a great value of some costs, for the equations that the method starts with. -/
def pursuit (start : Simplex ℚ) (costs : List ℚ) : Pursuit where
  size := start.columns.length
  solutions := { x | ∀ i < start.basis.size,
    ∑ j ∈ range start.columns.length, (start.column j).getD i 0 * x j = start.values.getD i 0 }
  costs := fun j => costs.getD j 0

/-- The basis represents the columns in it, and the values solve the equations of the start. -/
structure Sound (start : Simplex ℚ) (costs : List ℚ) (s : Simplex ℚ) : Prop where
  exact : start.options.IsExact
  shaped : s.Shaped
  retains : Retains start s
  costs : s.costs = costs
  represents : s.basis.Represents s.basicColumns
  solves : Basis.combination s.basis.size s.basicColumns s.values = start.values

def point (s : Simplex ℚ) : ℕ → ℚ := spread (s.basic.zip s.values)

def prices (s : Simplex ℚ) : List ℚ :=
  (s.basis.backward? (s.basic.map fun j => s.costs.getD j 0)).getD []

def rate (s : Simplex ℚ) (j : ℕ) : ℚ := s.costs.getD j 0 - dot s.prices (s.column j)

/-- How the values of all columns change with that of an entering one. -/
def directionOf (s : Simplex ℚ) (entering : ℕ) (d : List ℚ) (j : ℕ) : ℚ :=
  (if j = entering then 1 else 0) - spread (s.basic.zip d) j

variable {start s s' : Simplex ℚ} {costs d : List ℚ} {position row entering leaving : ℕ} {value x : ℚ}

theorem Sound.auxiliary_lt (h : Sound start costs s) : start.auxiliary < start.columns.length := by
  have hlt := h.shaped.auxiliary_lt
  rwa [h.retains.auxiliary, h.retains.columns] at hlt

theorem Sound.options (h : Sound start costs s) : s.options.IsExact := h.retains.options ▸ h.exact

/-! ## Values of the columns in the basis -/

theorem Shaped.spread_getElem (h : s.Shaped) (hd : d.length = s.basis.size) {i : ℕ}
    (hi : i < s.basic.length) : spread (s.basic.zip d) s.basic[i] = d.getD i 0 := by
  have hi' : i < d.length := by rw [hd, ← h.basic]; exact hi
  have hnodup : ((s.basic.zip d).map Prod.fst).Nodup := by
    rw [List.map_fst_zip (by rw [h.basic, hd])]
    exact h.nodup_basic
  have hmem : (s.basic[i], d[i]) ∈ s.basic.zip d := by
    rw [← List.getElem_zip (h := by rw [List.length_zip]; exact lt_min hi hi')]
    exact List.getElem_mem _
  rw [spread_of_mem hnodup hmem, List.getD_eq_getElem _ _ hi']

theorem spread_of_not_basic {j : ℕ} (hj : j ∉ s.basic) (d : List ℚ) :
    spread (s.basic.zip d) j = 0 := by
  refine spread_of_not_mem fun hmem => hj ?_
  obtain ⟨pair, hpair, rfl⟩ := List.mem_map.1 hmem
  exact (List.of_mem_zip (a := pair.1) (b := pair.2) hpair).1

theorem Shaped.sum_mul_spread (h : s.Shaped) (f : ℕ → ℚ) (d : List ℚ) :
    ∑ j ∈ range s.columns.length, f j * spread (s.basic.zip d) j = dot (s.basic.map f) d := by
  rw [dot_map_eq_sum_zip]
  refine Scalar.sum_mul_spread (fun pair hmem => h.lt_of_basic ?_) f
  exact (List.of_mem_zip (a := pair.1) (b := pair.2) hmem).1

theorem Shaped.sum_entry_mul_spread (h : s.Shaped) {i : ℕ} (hi : i < s.basis.size) (d : List ℚ) :
    ∑ j ∈ range s.columns.length, (s.column j).getD i 0 * spread (s.basic.zip d) j =
      (Basis.combination s.basis.size s.basicColumns d).getD i 0 := by
  rw [h.sum_mul_spread, Basis.getD_combination hi, basicColumns, List.map_map]
  rfl

/-! ## The vertex of a state -/

theorem Sound.exists_prices (h : Sound start costs s) :
    s.basis.backward? (s.basic.map fun j => s.costs.getD j 0) = some s.prices ∧
      s.basicColumns.map (dot s.prices) = s.basic.map fun j => s.costs.getD j 0 := by
  have hlength : (s.basic.map fun j => s.costs.getD j 0).length = s.basis.size :=
    (List.length_map _).trans h.shaped.basic
  obtain ⟨y, hy, -⟩ := h.shaped.basis.exists_backward hlength
  have hprices : s.prices = y := by rw [prices, hy, Option.getD_some]
  rw [hprices]
  exact ⟨hy, h.represents.backward hlength hy⟩

theorem Sound.rate_eq_zero (h : Sound start costs s) {j : ℕ} (hj : j ∈ s.basic) : s.rate j = 0 := by
  have hprices := h.exists_prices.2
  rw [basicColumns, List.map_map, List.map_inj_left] at hprices
  exact sub_eq_zero.2 (hprices j hj).symm

theorem Sound.getD_values (h : Sound start costs s) {i : ℕ} (hi : i < s.basis.size) :
    ∑ j ∈ range s.columns.length, (s.column j).getD i 0 * s.point j = start.values.getD i 0 := by
  rw [point, h.shaped.sum_entry_mul_spread hi, h.solves]

theorem Sound.sum_prices (h : Sound start costs s) {x : ℕ → ℚ} (hx : x ∈ (pursuit start costs).solutions) :
    ∑ j ∈ range s.columns.length, dot s.prices (s.column j) * x j = dot s.prices start.values := by
  have hvalues : start.values.length = s.basis.size := by rw [← h.solves, Basis.length_combination]
  calc _ = ∑ j ∈ range s.columns.length, ∑ i ∈ range s.basis.size,
        s.prices.getD i 0 * ((s.column j).getD i 0 * x j) := by
        refine sum_congr rfl fun j hj => ?_
        rw [dot_eq_sum (Or.inr (h.shaped.length_column (mem_range.1 hj)).le), sum_mul]
        exact sum_congr rfl fun i _ => mul_assoc _ _ _
    _ = ∑ i ∈ range s.basis.size, s.prices.getD i 0 *
        ∑ j ∈ range s.columns.length, (s.column j).getD i 0 * x j := by
        rw [sum_comm]
        exact sum_congr rfl fun i _ => (mul_sum _ _ _).symm
    _ = _ := by
        rw [dot_eq_sum (Or.inr hvalues.le)]
        refine sum_congr rfl fun i hi => ?_
        have hi' := mem_range.1 hi
        rw [h.retains.size] at hi'
        rw [h.retains.columns, h.retains.column, hx i hi']

def Sound.vertex (h : Sound start costs s) : Vertex (pursuit start costs) where
  basis := s.basic.toFinset
  point := s.point
  rate := s.rate
  base := dot s.prices start.values
  solves := by
    intro i hi
    have hvalues := h.getD_values (h.retains.size.symm ▸ hi)
    rwa [h.retains.columns, h.retains.column] at hvalues
  point_eq_zero := fun j hj => spread_of_not_basic (fun hmem => hj (List.mem_toFinset.2 hmem)) _
  rate_eq_zero := fun j hj => h.rate_eq_zero (List.mem_toFinset.1 hj)
  value_eq := by
    intro x hx
    rw [← h.sum_prices hx, Pursuit.value, h.retains.columns]
    change _ = _ + ∑ j ∈ range start.columns.length, _
    rw [← sum_add_distrib]
    refine sum_congr rfl fun j _ => ?_
    rw [rate, h.costs]
    change costs.getD j 0 * x j = _
    ring

/-- The solution for a column outside the basis is a direction. -/
theorem Sound.leads (h : Sound start costs s) (hentering : entering ∈ s.nonBasic)
    (hd : Basis.combination s.basis.size s.basicColumns d = s.column entering) :
    Leads h.vertex entering (s.directionOf entering d) where
  lt := by
    have hlt := h.shaped.lt_of_nonBasic hentering
    rwa [h.retains.columns] at hlt
  fresh := fun hmem => h.shaped.not_basic hentering (List.mem_toFinset.1 hmem)
  keeps := by
    intro x hx step i hi
    have hi' : i < s.basis.size := h.retains.size.symm ▸ hi
    have hsum : ∑ j ∈ range s.columns.length, (s.column j).getD i 0 * s.directionOf entering d j = 0 := by
      have hmem := mem_range.2 (h.shaped.lt_of_nonBasic hentering)
      simp only [directionOf, mul_sub, sum_sub_distrib, h.shaped.sum_entry_mul_spread hi', hd]
      rw [sum_eq_single_of_mem entering hmem fun j _ hne => by rw [if_neg hne, mul_zero], if_pos rfl,
        mul_one, sub_self]
    rw [h.retains.columns, h.retains.column] at hsum
    calc _ = ∑ j ∈ range start.columns.length, ((start.column j).getD i 0 * x j +
          step * ((start.column j).getD i 0 * s.directionOf entering d j)) :=
          sum_congr rfl fun j _ => by rw [along]; ring
      _ = _ := by rw [sum_add_distrib, ← mul_sum, hsum, mul_zero, add_zero, hx i hi]
  at_entering := by
    rw [directionOf, if_pos rfl, spread_of_not_basic (h.shaped.not_basic hentering), sub_zero]
  elsewhere := by
    intro j hj hne
    rw [directionOf, if_neg hne, spread_of_not_basic fun hmem => hj (List.mem_toFinset.2 hmem), sub_zero]

/-! ## Exchanging two columns -/

theorem Sound.withBasis (h : Sound start costs s) {basis : Basis ℚ} (hsize : basis.size = s.basis.size)
    (hrepresents : basis.Represents s.basicColumns) : Sound start costs (s.withBasis basis) where
  exact := h.exact
  shaped := h.shaped.withBasis hrepresents.shaped hsize
  retains := ⟨h.retains.options, h.retains.columns, h.retains.structural, h.retains.objective,
    h.retains.blandAfter, hsize.trans h.retains.size⟩
  costs := h.costs
  represents := hrepresents
  solves := by
    change Basis.combination basis.size _ _ = _
    rw [hsize]
    exact h.solves

section exchange

variable (h : Sound start costs s) (hentering : s.nonBasic[position]? = some entering)
  (hleaving : s.basic[row]? = some leaving) (hvalue : s.values[row]? = some value)
  (hx : d[row]? = some x) (hd : d.length = s.basis.size)

include h hentering hleaving hvalue hx hd

theorem Sound.exchanged (hcombination : Basis.combination s.basis.size s.basicColumns d = s.column entering)
    (hne : x ≠ 0) : Sound start costs (s.exchanged position row d entering leaving (value / x)) := by
  have hrow : row < s.basis.size := h.shaped.basic ▸ (List.getElem?_eq_some_iff.1 hleaving).1
  have hx' : d.getD row 0 = x := by rw [List.getD_eq_getElem?_getD, hx, Option.getD_some]
  have hvalue' : s.values.getD row 0 = value := by rw [List.getD_eq_getElem?_getD, hvalue, Option.getD_some]
  have hcolumns : (s.exchanged position row d entering leaving (value / x)).basicColumns =
      s.basicColumns.set row (s.column entering) := List.map_set
  refine ⟨h.exact, h.shaped.exchanged hentering hleaving hd _, ⟨h.retains.options, h.retains.columns,
    h.retains.structural, h.retains.objective, h.retains.blandAfter, h.retains.size⟩, h.costs, ?_, ?_⟩
  · rw [hcolumns, ← hcombination]
    exact h.represents.pushEta hrow hd (hx' ▸ hne)
  · obtain ⟨values, hvalues, -⟩ := Basis.exists_applyEta ⟨row, d⟩ hrow hd h.shaped.values
    have heq := Basis.applyEta_eq h.shaped.values hd hrow hvalues
    rw [hx', hvalue'] at heq
    rw [hcolumns, ← hcombination]
    change Basis.combination s.basis.size _ ((List.zipWith _ s.values d).set row (value / x)) = _
    rw [← heq, Basis.combination_applyEta h.represents.width h.shaped.values hd hrow (hx' ▸ hne) hvalues,
      h.solves]

/-- A pivot on an entry other than zero exchanges the columns, and the state stays sound. -/
theorem Sound.pivot (hcombination : Basis.combination s.basis.size s.basicColumns d = s.column entering)
    (hne : x ≠ 0) : Ensures (pivot position row d) s (fun _ s' => Sound start costs s' ∧
      ∃ basis, s' = (s.exchanged position row d entering leaving (value / x)).withBasis basis) never := by
  have hexchanged := h.exchanged hentering hleaving hvalue hx hd hcombination hne
  have hnegligible := h.options.negligible
  refine ensures_of_ends (ends_mono (pivot_ends h.shaped hentering hleaving hvalue hx hd) ?_
    fun _ _ => id) ?_
  · rintro - s' ⟨basis, rfl, rfl | hrefactor⟩
    · exact ⟨hexchanged, _, rfl⟩
    · rw [hnegligible] at hrefactor
      have hrepresents := Basis.represents_refactor (fun x hx => by simpa using hx) hrefactor
      obtain ⟨-, rows, -, rfl⟩ := Basis.refactor_eq_ok hrefactor
      exact ⟨hexchanged.withBasis rfl hrepresents, _, rfl⟩
  · rintro _ _ ⟨-, cause, -, herror⟩
    rw [hnegligible] at herror
    obtain ⟨basis, hok⟩ := hexchanged.represents.exists_refactor
      fun x (hx : (x == 0) = true) => by simpa using hx
    rw [hok] at herror
    cases herror

theorem Sound.point_exchanged (hne : x ≠ 0) :
    (s.exchanged position row d entering leaving (value / x)).point =
      along s.point (s.directionOf entering d) (value / x) := by
  set t := s.exchanged position row d entering leaving (value / x) with ht
  have hshaped : t.Shaped := h.shaped.exchanged hentering hleaving hd _
  have hout : entering ∉ s.basic := h.shaped.not_basic (List.mem_of_getElem? hentering)
  obtain ⟨hrow, rfl⟩ := List.getElem?_eq_some_iff.1 hleaving
  have hvalues : t.values.length = s.basis.size := hshaped.values
  funext j
  by_cases hj : j ∈ t.basic
  · obtain ⟨i, hi, rfl⟩ := List.mem_iff_getElem.1 hj
    have hi' : i < s.basis.size := hshaped.basic ▸ hi
    rw [point, hshaped.spread_getElem hvalues hi]
    by_cases heq : i = row
    · -- the entering column takes the step
      subst heq
      have hbasic : t.basic[i] = entering := List.getElem_set_self _
      rw [hbasic, along, directionOf, if_pos rfl, point, spread_of_not_basic hout, spread_of_not_basic hout,
        List.getD_eq_getElem _ _ (hvalues ▸ hi')]
      simp [ht, Simplex.exchanged]
    · -- another one falls by its part of the step
      have hlt : i < s.basic.length := by rw [h.shaped.basic]; exact hi'
      have hbasic : t.basic[i] = s.basic[i] := List.getElem_set_ne (Ne.symm heq) _
      have hne' : s.basic[i] ≠ entering := fun h' => hout (h' ▸ List.getElem_mem hlt)
      have hchanged : t.values.getD i 0 = s.values.getD i 0 - value / x * d.getD i 0 := by
        have hi₁ : i < s.values.length := by rw [h.shaped.values]; exact hi'
        have hi₂ : i < d.length := by rw [hd]; exact hi'
        rw [List.getD_eq_getElem _ _ (hvalues ▸ hi'), List.getD_eq_getElem _ _ hi₁,
          List.getD_eq_getElem _ _ hi₂]
        simp [ht, Simplex.exchanged, List.getElem_set_ne (Ne.symm heq)]
      rw [hbasic, along, directionOf, if_neg hne', point, h.shaped.spread_getElem h.shaped.values hlt,
        h.shaped.spread_getElem hd hlt, hchanged]
      ring
  · rw [point, spread_of_not_basic hj]
    have hmem : ¬ (j = entering ∨ j ≠ s.basic[row] ∧ j ∈ s.basic) := fun hor =>
      hj ((h.shaped.mem_set_basic hleaving).2 hor)
    rw [not_or] at hmem
    rw [along, directionOf, if_neg hmem.1, point]
    by_cases heq : j = s.basic[row]
    · -- the leaving column falls to zero
      rw [heq, h.shaped.spread_getElem h.shaped.values hrow, h.shaped.spread_getElem hd hrow,
        List.getD_eq_getElem?_getD, hvalue, List.getD_eq_getElem?_getD, hx]
      simp only [Option.getD_some]
      field_simp
      ring
    · have hbasic : j ∉ s.basic := fun hmem' => hmem.2 ⟨heq, hmem'⟩
      rw [spread_of_not_basic hbasic, spread_of_not_basic hbasic]
      ring

end exchange

end Simplex

end Satisfiability.Linear
