import Satisfiability.Proofs.Linear.Equations
import Satisfiability.Proofs.Linear.Improvement
import Satisfiability.Proofs.Linear.Stages

/-!
# The first phase

If the slack columns are not feasible, the auxiliary column enters for the row of least value, and
then no value is negative (`auxiliary_enters`). Its cost bounds the value that is pursued from
above, so pivots end with it as small as possible (`Sound.improve_first`). If it is above zero then,
there is no feasible assignment (`not_feasible_of_auxiliary`). If it is zero in the basis, some
slack column has an entry in its row and takes its place (`Sound.expel`).
-/

namespace Satisfiability.Linear.Simplex

open Scalar Step Finset Pursuit

variable {program : Program ℚ} {options : Options ℚ} {start s s' : Simplex ℚ} {costs d : List ℚ}

theorem Sound.pursuing (h : Sound start costs s) (costs' : List ℚ)
    (hcosts : costs'.length = s.columns.length) : Sound start costs' (s.pursuing costs') :=
  ⟨h.exact, h.shaped.withCosts hcosts, ⟨h.retains.options, h.retains.columns, h.retains.structural,
    h.retains.objective, h.retains.blandAfter, h.retains.size⟩, rfl, h.represents, h.solves⟩

/-! ## The auxiliary column enters -/

theorem leastRow_spec {values : List ℚ} (hne : values ≠ []) :
    ∃ value, values[leastRow values]? = some value ∧ ∀ other ∈ values, value ≤ other := by
  dsimp only [leastRow]
  generalize hfold : List.foldl _ none _ = best
  have hbest : Best (fun _ => True) (fun entry : ℚ × ℕ => (entry.2, entry.1))
      (fun a b => a.2 ≤ b.2) values.zipIdx best := by
    rw [← hfold]
    refine Chooses.best ?_ _
    refine ⟨fun _ _ hnot => absurd trivial hnot, fun _ _ => rfl, ?_, fun _ => le_refl _, ?_⟩
    · rintro ⟨row, value⟩ item -
      by_cases hlt : item.1 < value
      · exact Or.inl ⟨if_pos (decide_eq_true hlt), hlt.le⟩
      · exact Or.inr ⟨if_neg (by rw [less_rat, decide_eq_true_eq]; exact hlt), not_lt.1 hlt⟩
    · exact fun _ _ _ hab hbc => le_trans hab hbc
  obtain ⟨hnone, hsome⟩ := best_zipIdx (fun _ => True) id (fun a b => a ≤ b) hbest
  cases best with
  | none =>
    obtain ⟨value, hvalue⟩ := List.exists_mem_of_ne_nil values hne
    exact absurd trivial (hnone rfl value hvalue)
  | some best =>
    obtain ⟨⟨value, hvalue, -, hkey⟩, hall⟩ := hsome best.1 best.2 rfl
    exact ⟨value, hvalue, fun other hother => hkey.le.trans (hall other hother trivial)⟩

/-- After a pivot no value is negative if the step is not, and no other value falls too far. -/
theorem nonNegative_exchanged {position row entering leaving : ℕ} {step : ℚ} {basis : Basis ℚ}
    (hstep : 0 ≤ step) (h : ∀ value ∈ s.values, ∀ x ∈ d, 0 ≤ value - step * x) :
    ((s.exchanged position row d entering leaving step).withBasis basis).NonNegative := by
  intro value hmem
  rcases List.mem_or_eq_of_mem_set hmem with hmem | rfl
  · obtain ⟨i, hi, rfl⟩ := List.mem_iff_getElem.1 hmem
    rw [List.length_zipWith, lt_min_iff] at hi
    rw [List.getElem_zipWith]
    exact h _ (List.getElem_mem hi.1) _ (List.getElem_mem hi.2)
  · exact hstep

section start

variable {etaLimit : ℕ} {bland : Bool} (hprogram : program.WellFormed)
  (hstart : start = ofProgram (.exact etaLimit bland) program)

include hprogram hstart

theorem auxiliary_eq : start.auxiliary = program.columns + program.constraints.length := by
  subst hstart
  exact (shaped_ofProgram hprogram).auxiliary_eq

theorem sound_start : Sound start start.objective start := by
  subst hstart
  exact sound_ofProgram hprogram etaLimit bland

/-- With the slack columns in the basis the solution for the auxiliary column is the column itself.
-/
theorem direction_auxiliary (hdirection : start.basis.forward? (start.column start.auxiliary) = some d) :
    d = List.replicate program.constraints.length (-1) := by
  have hsound := sound_start hprogram hstart
  obtain ⟨d', hd, hlength, hcombination⟩ := hsound.exists_direction hsound.shaped.auxiliary_lt
  obtain rfl : d' = d := Option.some.inj (hd.symm.trans hdirection)
  rw [auxiliary_eq hprogram hstart] at hcombination
  subst hstart
  rw [← column_auxiliary (.exact etaLimit bland), ← hcombination, basicColumns_ofProgram]
  exact (Basis.combination_unitColumns hlength).symm

/-- Once the auxiliary column is in the basis, no value is negative. -/
theorem auxiliary_enters (hinfeasible : start.infeasibleStart = true) {position : ℕ} {direction : List ℚ}
    (hposition : start.nonBasic.idxOf? start.auxiliary = some position)
    (hdirection : start.basis.forward? (start.column start.auxiliary) = some direction) :
    Ensures (pivot position (leastRow start.values) direction) start (fun _ s' =>
      Sound start start.objective s' ∧ s'.NonNegative ∧ s'.iterations = start.iterations + 1) never := by
  have hsound := sound_start hprogram hstart
  obtain ⟨negative, hnegative, hlt⟩ : ∃ value ∈ start.values, value < 0 := by
    obtain ⟨value, hmem, hless⟩ := List.any_eq_true.1 hinfeasible
    refine ⟨value, hmem, ?_⟩
    subst hstart
    exact of_decide_eq_true hless
  obtain ⟨value, hvalue, hleast⟩ := leastRow_spec (List.ne_nil_of_mem hnegative)
  have hvalue_neg : value < 0 := lt_of_le_of_lt (hleast negative hnegative) hlt
  obtain ⟨hlt_position, hentering, -⟩ := List.idxOf?_eq_some_iff.1 hposition
  have hentering' : start.nonBasic[position]? = some start.auxiliary := by
    rw [List.getElem?_eq_getElem hlt_position, hentering]
  have hrow : leastRow start.values < start.basis.size :=
    hsound.shaped.values ▸ (List.getElem?_eq_some_iff.1 hvalue).1
  have hd' := direction_auxiliary hprogram hstart hdirection
  obtain ⟨d, hd, hlength, hcombination⟩ := hsound.exists_direction hsound.shaped.auxiliary_lt
  obtain rfl : d = direction := Option.some.inj (hd.symm.trans hdirection)
  obtain ⟨leaving, x, _, hleaving, hx, -⟩ := hsound.shaped.exists_row hlength hrow
  have hx' : x = -1 := by
    rw [hd'] at hx
    exact List.eq_of_mem_replicate (List.mem_of_getElem? hx)
  -- every entry of the direction is minus one, so the step lifts all values by the least one
  have hstep : value / x = -value := by rw [hx', div_neg, div_one]
  refine ensures_of_never (hsound.pivot hentering' hleaving hvalue hx hlength hcombination
    (by rw [hx']; norm_num)) ?_
  rintro - s' ⟨hsound', basis, rfl⟩
  refine ⟨hsound', nonNegative_exchanged ?_ fun v hv y hy => ?_, rfl⟩
  · rw [hstep]
    exact (neg_pos.2 hvalue_neg).le
  · rw [hd'] at hy
    rw [hstep, List.eq_of_mem_replicate hy]
    have hle := hleast v hv
    linarith

end start

/-! ## The auxiliary column is made small -/

theorem value_auxiliaryCosts (h : start.auxiliary < start.columns.length) (x : ℕ → ℚ) :
    (pursuit start start.auxiliaryCosts).value x = -x start.auxiliary := by
  have hcost : ∀ j, start.auxiliaryCosts.getD j 0 = if j = start.auxiliary then -1 else 0 := by
    intro j
    rw [auxiliaryCosts, unit, List.getD_eq_getElem?_getD, List.getElem?_set]
    by_cases heq : start.auxiliary = j
    · rw [if_pos heq, if_pos heq.symm, if_pos (by rwa [List.length_replicate])]
      rfl
    · rw [if_neg heq, if_neg (Ne.symm heq), zero_rat, List.getElem?_getD_replicate_default_eq]
  rw [Pursuit.value]
  change ∑ j ∈ range start.columns.length, start.auxiliaryCosts.getD j 0 * x j = _
  rw [sum_eq_single_of_mem _ (mem_range.2 h) fun j _ hne => by rw [hcost, if_neg hne, zero_mul], hcost,
    if_pos rfl]
  ring

theorem falls_of_improves (h : start.auxiliary < start.columns.length)
    {v : Vertex (pursuit start start.auxiliaryCosts)} {entering : ℕ} {direction : ℕ → ℚ}
    (hleads : Leads v entering direction) (hrate : 0 < v.rate entering) :
    direction start.auxiliary < 0 := by
  have hsum : (pursuit start start.auxiliaryCosts).value direction = v.rate entering := hleads.sum_costs
  rw [value_auxiliaryCosts h] at hsum
  linarith

theorem auxiliary_mem_of_improves (h : start.auxiliary < start.columns.length)
    {v : Vertex (pursuit start start.auxiliaryCosts)} {entering : ℕ} {direction : ℕ → ℚ}
    (hleads : Leads v entering direction) (hrate : 0 < v.rate entering) : start.auxiliary ∈ v.basis := by
  have hfalls := falls_of_improves h hleads hrate
  by_contra hout
  by_cases heq : start.auxiliary = entering
  · rw [heq, hleads.at_entering] at hfalls
    exact absurd hfalls (not_lt.2 zero_le_one)
  · rw [hleads.elsewhere _ hout heq] at hfalls
    exact lt_irrefl 0 hfalls

/-- One pivot of the first phase. The value is bounded, so that either a pivot is made or no rate is
above zero. -/
theorem Sound.improve_first (h : Sound start start.auxiliaryCosts s) (hvalues : s.NonNegative) :
    Ensures (Simplex.improve true) s (fun answer s' =>
      (answer = some true ∧ s' = s ∧ ∀ j < start.columns.length, h.vertex.rate j ≤ 0) ∨
      (answer = none ∧ s'.NonNegative ∧ s'.iterations = s.iterations + 1 ∧
        ∃ (h' : Sound start start.auxiliaryCosts s') (entering leaving : ℕ) (direction : ℕ → ℚ),
          Pivots h.vertex h'.vertex entering leaving direction ∧
          (s.usesBland = true →
            Bland (Allowed start true) h.vertex h'.vertex entering leaving direction))) never := by
  refine ensures_of_never (h.improve hvalues true) ?_
  rintro answer s' (⟨hanswer, hs', hoptimal⟩ | ⟨-, -, entering, direction, hleads, -, hrate, hrises⟩ |
    ⟨hanswer, hcount, h', entering, leaving, direction, hpivots, -, hbland⟩)
  · exact Or.inl ⟨hanswer, hs', fun j hj => hoptimal j hj (Or.inl rfl)⟩
  · exact absurd (falls_of_improves h.auxiliary_lt hleads hrate) (not_lt.2 (hrises _))
  · exact Or.inr ⟨hanswer, h'.nonNegative hpivots.point_nonneg, hcount, h', entering, leaving, direction,
      hpivots, hbland⟩

section start

variable {etaLimit : ℕ} {bland : Bool} (hprogram : program.WellFormed)
  (hstart : start = ofProgram (.exact etaLimit bland) program)

include hprogram hstart

/-- If the auxiliary column cannot be made zero, there is no feasible assignment. -/
theorem not_feasible_of_auxiliary (h : Sound start start.auxiliaryCosts s)
    (hoptimal : ∀ j < start.columns.length, h.vertex.rate j ≤ 0) (hpositive : 0 < s.point start.auxiliary)
    (assignment : List ℚ) : ¬ program.Feasible assignment := by
  intro hfeasible
  have hsolution : extension program assignment ∈ (pursuit start start.auxiliaryCosts).solutions := by
    rw [hstart]
    exact extension_mem_solutions hprogram hfeasible
  have hle := h.vertex.value_le (fun _ => True) (fun j hj _ => hoptimal j hj) hsolution
    (fun j _ => extension_nonneg hfeasible j) fun _ _ hnot => absurd trivial hnot
  rw [value_auxiliaryCosts h.auxiliary_lt, value_auxiliaryCosts h.auxiliary_lt, auxiliary_eq hprogram hstart,
    extension_auxiliary hfeasible, ← auxiliary_eq hprogram hstart] at hle
  change -0 ≤ -s.point start.auxiliary at hle
  linarith

end start

/-! ## The auxiliary column leaves -/

/-- The entries of a row of the solutions are the products with this row of the inverse. -/
theorem Sound.entry_eq_dot (h : Sound start costs s) {row j : ℕ} (hrow : row < s.basis.size) {x : ℚ}
    {y : List ℚ} (hy : s.basicColumns.map (dot y) = unit s.basis.size row one)
    (hd : Basis.combination s.basis.size s.basicColumns d = s.column j) (hx : d[row]? = some x) :
    x = dot y (s.column j) := by
  rw [← hd, Basis.dot_combination fun column hmem => (h.represents.height column hmem).le, hy,
    Basis.dot_unit hrow, List.getD_eq_getElem?_getD, hx, Option.getD_some]

theorem greatestEntry_spec (y : List ℚ) :
    (s.greatestEntry y = none → ∀ j ∈ s.nonBasic, j = s.auxiliary) ∧
    ∀ position x, s.greatestEntry y = some (position, x) →
      (∃ j, s.nonBasic[position]? = some j ∧ j ≠ s.auxiliary ∧ x = |dot y (s.column j)|) ∧
      ∀ j ∈ s.nonBasic, j ≠ s.auxiliary → |dot y (s.column j)| ≤ x := by
  dsimp only [greatestEntry]
  generalize hfold : List.foldl _ none _ = best
  -- the fold chooses a greatest one among the entries that are looked at
  have hbest : Best (fun place : ℕ × ℕ => place.1 ≠ s.auxiliary)
      (fun place => (place.2, |dot y (s.column place.1)|)) (fun a b => b.2 ≤ a.2)
      s.nonBasic.zipIdx best := by
    rw [← hfold]
    refine Chooses.best ?_ _
    refine ⟨?_, ?_, ?_, fun _ => le_refl _, ?_⟩
    · intro best place hnot
      exact if_pos (not_not.1 hnot)
    · intro place hne
      refine (if_neg hne).trans ?_
      rw [magnitude_rat]
      rfl
    · rintro ⟨position, x⟩ place hne
      rw [if_neg hne, magnitude_rat]
      by_cases hlt : x < |dot y (s.column place.1)|
      · exact Or.inl ⟨if_pos (decide_eq_true hlt), hlt.le⟩
      · exact Or.inr ⟨if_neg fun hless => hlt (of_decide_eq_true hless), not_lt.1 hlt⟩
    · exact fun _ _ _ hab hbc => le_trans hbc hab
  obtain ⟨hnone, hsome⟩ := best_zipIdx (fun j => j ≠ s.auxiliary) (fun j => |dot y (s.column j)|)
    (fun a b => b ≤ a) hbest
  refine ⟨fun h j hj => not_not.1 (hnone h j hj), fun position x h => ?_⟩
  obtain ⟨⟨j, hj, hne, hkey⟩, hall⟩ := hsome position x h
  exact ⟨⟨j, hj, hne, hkey.symm⟩, hall⟩

section start

variable {etaLimit : ℕ} {bland : Bool} (hprogram : program.WellFormed)
  (hstart : start = ofProgram (.exact etaLimit bland) program)

include hprogram hstart

/-- The row of the auxiliary column in the inverse of the basis has an entry other than zero for
some slack column outside the basis. -/
theorem exists_entry_of_auxiliary (h : Sound start costs s) {row : ℕ} {y : List ℚ}
    (hrow : s.basic[row]? = some start.auxiliary)
    (hy : s.basicColumns.map (dot y) = unit s.basis.size row one) :
    ∃ j ∈ s.nonBasic, j ≠ start.auxiliary ∧ dot y (s.column j) ≠ 0 := by
  have hsize : s.basis.size = program.constraints.length := by
    rw [h.retains.size, hstart]
    rfl
  have hauxiliary := auxiliary_eq hprogram hstart
  have hproduct : ∀ {i j : ℕ}, s.basic[i]? = some j → dot y (s.column j) = if row = i then 1 else 0 := by
    intro i j hi
    have hlt : i < s.basis.size := h.shaped.basic ▸ (List.getElem?_eq_some_iff.1 hi).1
    have hentry := congrArg (fun xs => xs.getD i 0) hy
    simp only [Basis.getD_unit hlt] at hentry
    rw [← hentry, basicColumns, List.map_map, List.getD_eq_getElem?_getD, List.getElem?_map, hi]
    rfl
  -- the product with the auxiliary column is one, so that some entry is not zero
  obtain ⟨i, hi, hne⟩ : ∃ i < program.constraints.length, y.getD i 0 ≠ 0 := by
    by_contra hzero
    have hone := hproduct hrow
    rw [if_pos rfl, h.retains.column, hauxiliary, hstart, column_auxiliary,
      dot_eq_sum (Or.inr List.length_replicate.le), sum_eq_zero] at hone
    · exact zero_ne_one hone
    · intro i hi
      rw [not_not.1 fun hne => hzero ⟨i, mem_range.1 hi, hne⟩, zero_mul]
  have hslack : dot y (s.column (program.columns + i)) = y.getD i 0 := by
    rw [h.retains.column, hstart, column_slack _ hi, dot_comm, Basis.dot_unit hi]
  have hne' : program.columns + i ≠ start.auxiliary := by
    rw [hauxiliary]
    omega
  refine ⟨program.columns + i, h.shaped.mem_nonBasic ?_ fun hbasic => ?_, hne', hslack ▸ hne⟩
  · rw [h.retains.columns, hstart, (shaped_ofProgram hprogram).width]
    exact Nat.lt_succ_of_lt (Nat.add_lt_add_left hi _)
  · -- in the basis it would be in another row, where the product is zero
    obtain ⟨k, hk⟩ := List.mem_iff_getElem?.1 hbasic
    have hentry := hproduct hk
    rw [hslack, if_neg] at hentry
    · exact hne hentry
    · rintro rfl
      exact hne' (Option.some.inj (hk.symm.trans hrow))

/-- The auxiliary column, where it is zero in the basis, is exchanged for another one. -/
theorem Sound.expel (h : Sound start costs s) (hvalues : s.NonNegative) {row : ℕ}
    (hrow : s.basic.idxOf? s.auxiliary = some row) (hzero : s.values[row]? = some 0) :
    Ensures (expelAuxiliary row) s (fun _ s' => Sound start costs s' ∧ s'.NonNegative ∧
      start.auxiliary ∉ s'.basic ∧ s'.iterations = s.iterations + 1) never := by
  obtain ⟨hlt, hbasic, -⟩ := List.idxOf?_eq_some_iff.1 hrow
  have hleaving : s.basic[row]? = some start.auxiliary := by
    rw [List.getElem?_eq_getElem hlt, hbasic, h.retains.auxiliary]
  have hunit : (unit s.basic.length row (one : ℚ)).length = s.basis.size := by
    rw [length_unit, h.shaped.basic]
  obtain ⟨y, hy, -⟩ := h.shaped.basis.exists_backward hunit
  have hproducts := h.represents.backward hunit hy
  rw [h.shaped.basic] at hproducts
  -- a column outside the basis other than the auxiliary one has an entry in the row
  obtain ⟨j, hj, hne, hentry⟩ := exists_entry_of_auxiliary hprogram hstart h hleaving hproducts
  simp only [expelAuxiliary, ensures_bind, ensures_get, hy, entry_some, ensures_pure]
  cases hbest : s.greatestEntry y with
  | none =>
    have hnone := (greatestEntry_spec y).1 hbest j hj
    exact absurd (hnone.trans h.retains.auxiliary) hne
  | some best =>
    obtain ⟨position, x⟩ := best
    obtain ⟨⟨entering, hentering, hne', rfl⟩, hall⟩ := (greatestEntry_spec y).2 position x hbest
    have hpositive : 0 < |dot y (s.column entering)| :=
      lt_of_lt_of_le (abs_pos.2 hentry) (hall j hj (h.retains.auxiliary ▸ hne))
    obtain ⟨d, hd, hlength, hcombination⟩ :=
      h.exists_direction (h.shaped.lt_of_nonBasic (List.mem_of_getElem? hentering))
    obtain ⟨_, x, _, -, hx, -⟩ := h.shaped.exists_row hlength (h.shaped.basic ▸ hlt)
    have hx' := h.entry_eq_dot (h.shaped.basic ▸ hlt) hproducts hcombination hx
    dsimp only
    rw [if_pos (by rw [h.options.pivotTolerance]; exact decide_eq_true hpositive)]
    simp only [ensures_bind, hentering, entry_some, ensures_pure,
      getElem?_columns (h.shaped.lt_of_nonBasic (List.mem_of_getElem? hentering)), hd]
    refine ensures_of_never (h.pivot hentering hleaving hzero hx hlength hcombination
      (hx' ▸ abs_pos.1 hpositive)) ?_
    rintro - s' ⟨hsound, basis, rfl⟩
    -- the column leaves at zero, so the step is zero
    refine ⟨hsound, nonNegative_exchanged (by rw [zero_div]) fun value hvalue w _ => ?_, fun hmem => ?_, rfl⟩
    · rw [zero_div, zero_mul, sub_zero]
      exact hvalues value hvalue
    · rcases (h.shaped.mem_set_basic hleaving).1 hmem with heq | ⟨hne'', -⟩
      · exact hne' (heq.symm.trans h.retains.auxiliary.symm)
      · exact hne'' rfl

end start

end Satisfiability.Linear.Simplex
