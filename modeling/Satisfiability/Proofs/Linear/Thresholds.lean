import Satisfiability.Proofs.Linear.Phases

/-!
# The method with thresholds

Thresholds above zero decide which pivots are made and when the method stops, but the numbers stay
exact, and no pivot is made on an entry that is zero. So a state is sound once its thresholds are
left out (`Consistent`), whatever has been taken for zero on the way. Values below zero are not
excluded. What an answer shows is that the rates are not above the tolerance (`run_shows`).
-/

namespace Satisfiability.Linear

/-- The options of the default configuration, as rational numbers. -/
def Options.standard : Options ℚ where
  etaLimit := 10
  pivotTolerance := 1 / 10 ^ 11
  feasibilityTolerance := 1 / 10 ^ 9
  bland := false
  iterationLimit := none
  ratioThreshold := 1 / 10 ^ 14
  negligible := fun x => decide (x < 1 / 10 ^ 13)

/-- No threshold is below zero, and zero is negligible. -/
structure Options.NonNegative (options : Options ℚ) : Prop where
  pivotTolerance : 0 ≤ options.pivotTolerance
  feasibilityTolerance : 0 ≤ options.feasibilityTolerance
  ratioThreshold : 0 ≤ options.ratioThreshold
  negligible : options.negligible 0 = true

theorem Options.nonNegative_standard : Options.standard.NonNegative where
  pivotTolerance := by norm_num [standard]
  feasibilityTolerance := by norm_num [standard]
  ratioThreshold := by norm_num [standard]
  negligible := by norm_num [standard]

theorem Options.NonNegative.ne_zero {options : Options ℚ} (h : options.NonNegative) {x : ℚ}
    (hx : options.negligible x = false) : x ≠ 0 := by
  rintro rfl
  exact Bool.noConfusion (hx.symm.trans h.negligible)

namespace Simplex

open Scalar Step

variable {program : Program ℚ} {options : Options ℚ} {start s s' : Simplex ℚ} {costs d : List ℚ}

def withoutThresholds (s : Simplex ℚ) : Simplex ℚ := { s with options := .exact 0 false }

/-- The options are those of the start, and without thresholds the state is sound. -/
structure Consistent (start : Simplex ℚ) (costs : List ℚ) (s : Simplex ℚ) : Prop where
  options : s.options = start.options
  sound : Sound start.withoutThresholds costs s.withoutThresholds

theorem Consistent.shaped (h : Consistent start costs s) : s.Shaped :=
  ⟨h.sound.shaped.height, h.sound.shaped.width, h.sound.shaped.objective, h.sound.shaped.costs,
    h.sound.shaped.basic, h.sound.shaped.values, h.sound.shaped.partition, h.sound.shaped.basis⟩

theorem Consistent.auxiliary (h : Consistent start costs s) : s.auxiliary = start.auxiliary :=
  h.sound.retains.auxiliary

theorem Consistent.pursuing_objective (h : Consistent start costs s) :
    Consistent start start.objective (s.pursuing s.objective) :=
  ⟨h.options, h.sound.pursuing_objective⟩

theorem Consistent.pursuing_auxiliaryCosts (h : Consistent start costs s) :
    Consistent start start.auxiliaryCosts (s.pursuing s.auxiliaryCosts) :=
  ⟨h.options, h.sound.pursuing_auxiliaryCosts⟩

theorem consistent_start (hprogram : program.WellFormed) (hstart : start = ofProgram options program) :
    Consistent start start.objective start :=
  ⟨rfl, sound_start hprogram (congrArg withoutThresholds hstart)⟩

theorem Consistent.direction (h : Consistent start costs s) {j : ℕ} (hj : j < s.columns.length)
    (hd : s.basis.forward? (s.column j) = some d) :
    d.length = s.basis.size ∧ Basis.combination s.basis.size s.basicColumns d = s.column j := by
  obtain ⟨d', hd', hsolution⟩ := h.sound.exists_direction hj
  obtain rfl : d' = d := Option.some.inj (hd'.symm.trans hd)
  exact hsolution

/-! ## Pivots -/

section pivot

variable (h : Consistent start costs s) (hoptions : start.options.NonNegative)

include h hoptions

/-- A pivot on an entry other than zero leads to a consistent state, unless the factors fail. -/
theorem Consistent.pivot {position row entering : ℕ} {x : ℚ}
    (hentering : s.nonBasic[position]? = some entering)
    (hd : s.basis.forward? (s.column entering) = some d) (hx : d[row]? = some x) (hne : x ≠ 0) :
    Ensures (Simplex.pivot position row d) s (fun _ s' => Consistent start costs s') anyFault := by
  obtain ⟨hlength, hcombination⟩ :=
    h.direction (h.shaped.lt_of_nonBasic (List.mem_of_getElem? hentering)) hd
  obtain ⟨leaving, _, value, hleaving, -, hvalue⟩ :=
    h.sound.shaped.exists_row hlength (hlength ▸ (List.getElem?_eq_some_iff.1 hx).1)
  have hexchanged := h.sound.exchanged hentering hleaving hvalue hx hlength hcombination hne
  refine ensures_of_ends (ends_mono (pivot_ends h.shaped hentering hleaving hvalue hx hlength) ?_
    fun _ _ => id) fun _ _ _ => trivial
  rintro - s' ⟨basis, rfl, rfl | hrefactor⟩
  · exact ⟨h.options, hexchanged⟩
  · rw [h.options] at hrefactor
    have hrepresents := Basis.represents_refactor (fun _ => hoptions.ne_zero) hrefactor
    obtain ⟨-, rows, -, rfl⟩ := Basis.refactor_eq_ok hrefactor
    exact ⟨h.options, hexchanged.withBasis rfl hrepresents⟩

end pivot

/-- The pivot is one for a candidate, on an entry above the threshold. -/
def Offers (s : Simplex ℚ) (candidates : List (Candidate ℚ)) (move : Move ℚ) : Prop :=
  ∃ c ∈ candidates, move.position = c.position ∧
    (s.columns[c.column]?).bind s.basis.forward? = some move.direction ∧
    ∃ x, move.direction[move.row]? = some x ∧ s.options.ratioThreshold < x

theorem offers_of_chooseMove {fallback : Option (Move ℚ)} {candidates : List (Candidate ℚ)} {move : Move ℚ}
    (h : s.chooseMove fallback candidates = some (.move move)) :
    fallback = some move ∨ s.Offers candidates move := by
  induction candidates generalizing fallback with
  | nil =>
    cases fallback with
    | none => cases h
    | some other =>
      cases h
      exact Or.inl rfl
  | cons c rest ih =>
    unfold chooseMove at h
    obtain ⟨entries, hentries, h⟩ := Option.bind_eq_some_iff.1 h
    obtain ⟨direction, hdirection, h⟩ := Option.bind_eq_some_iff.1 h
    have hforward : (s.columns[c.column]?).bind s.basis.forward? = some direction := by
      rw [hentries, Option.bind_some, hdirection]
    cases hrow : s.ratioTest direction with
    | none =>
      rw [hrow] at h
      cases h
    | some row =>
      rw [hrow] at h
      obtain ⟨_, -, h⟩ := Option.bind_eq_some_iff.1 h
      obtain ⟨x, _, hx, -, hexceeds, -⟩ := ratioTest_least.1 row hrow
      have hoffers : s.Offers (c :: rest) ⟨c.position, row, direction⟩ :=
        ⟨c, List.mem_cons_self, rfl, hforward, x, hx, hexceeds⟩
      dsimp only at h
      split at h
      · cases h
        exact Or.inr hoffers
      · rcases ih h with hfallback | ⟨other, hmem, hother⟩
        · -- the fallback is the earlier one, if there is any
          cases fallback with
          | none =>
            cases hfallback
            exact Or.inr hoffers
          | some earlier => exact Or.inl hfallback
        · exact Or.inr ⟨other, List.mem_cons_of_mem _ hmem, hother⟩

/-! ## One phase -/

/-- No column that may enter has a rate above the tolerance. -/
def AtRest (start : Simplex ℚ) (withAuxiliary : Bool) (s : Simplex ℚ) : Prop :=
  ∀ j < start.columns.length, Allowed start withAuxiliary j →
    s.rate j ≤ start.options.feasibilityTolerance

section phase

variable (h : Consistent start costs s) (hoptions : start.options.NonNegative) (withAuxiliary : Bool)

include h hoptions

theorem Consistent.atRest {bland : Bool}
    (hcandidates : s.candidates withAuxiliary bland s.prices = some []) : AtRest start withAuxiliary s := by
  intro j hj hallowed
  by_contra hrate
  obtain ⟨candidates, hfound, hmem, -⟩ := candidates_spec h.shaped withAuxiliary bland s.prices
  obtain rfl : candidates = [] := Option.some.inj (hfound.symm.trans hcandidates)
  have hbasic : j ∉ s.basic := fun hbasic =>
    hrate ((h.sound.rate_eq_zero hbasic).trans_le hoptions.feasibilityTolerance)
  obtain ⟨position, hposition⟩ := List.mem_iff_getElem?.1
    (h.shaped.mem_nonBasic (h.sound.retains.columns.symm ▸ hj) hbasic)
  refine List.not_mem_nil ((hmem ⟨position, j, s.rate j⟩).2 ⟨hposition, rfl, ?_, ?_⟩)
  · rwa [h.auxiliary]
  · rw [h.options]
    exact decide_eq_true (not_le.1 hrate)

/-- One pivot keeps the state consistent, and where there is none to make the state is at rest. -/
theorem Consistent.improve : Ensures (Simplex.improve withAuxiliary) s (fun answer s' =>
    Consistent start costs s' ∧ (answer = some true → AtRest start withAuxiliary s')) anyFault := by
  have hprices : s.basis.backward? (s.basic.map fun j => s.costs.getD j 0) = some s.prices :=
    h.sound.exists_prices.1
  obtain ⟨candidates, hcandidates, hmem, -⟩ := candidates_spec h.shaped withAuxiliary s.usesBland s.prices
  simp only [Simplex.improve, ensures_bind, ensures_get, h.shaped.mapM_costs 0]
  split
  · trivial
  · simp only [ensures_bind, ensures_pure, hprices, entry_some, hcandidates]
    split
    · rename_i hempty
      -- no candidate is the only way to an optimum
      rw [List.isEmpty_iff.1 hempty] at hcandidates
      exact ⟨h, fun _ => h.atRest hoptions withAuxiliary hcandidates⟩
    · cases hchoice : s.chooseMove none candidates with
      | none => trivial
      | some choice =>
        rw [entry_some, ensures_bind, ensures_pure]
        cases choice with
        | unbounded => exact ⟨h, fun hanswer => absurd hanswer (by decide)⟩
        | nothing => trivial
        | move move =>
          obtain ⟨c, hc, hposition, hforward, x, hx, hexceeds⟩ :=
            (offers_of_chooseMove hchoice).resolve_left (Option.some_ne_none move).symm
          have hentering := ((hmem c).1 hc).1
          rw [getElem?_columns (h.shaped.lt_of_nonBasic (List.mem_of_getElem? hentering)),
            Option.bind_some] at hforward
          rw [h.options] at hexceeds
          rw [ensures_bind, hposition]
          refine ensures_mono (h.pivot hoptions hentering hforward hx
            (lt_of_le_of_lt hoptions.ratioThreshold hexceeds).ne') ?_ fun _ => id
          exact fun _ _ h' => ⟨h', fun hanswer => absurd hanswer (by decide)⟩

theorem Consistent.optimiseWithin (budget : ℕ) :
    Ensures (Simplex.optimiseWithin withAuxiliary budget) s (fun bounded s' =>
      Consistent start costs s' ∧ (bounded = true → AtRest start withAuxiliary s')) anyFault := by
  -- on the pivots that are left; only the last one is followed by rest
  induction budget generalizing s with
  | zero => trivial
  | succ budget ih =>
    unfold Simplex.optimiseWithin
    rw [ensures_bind]
    refine ensures_mono (h.improve hoptions withAuxiliary) ?_ fun _ => id
    rintro answer s₁ ⟨h₁, hrest⟩
    cases answer with
    | none => exact ih h₁
    | some bounded => exact ⟨h₁, fun hbounded => hrest (congrArg some hbounded)⟩

/-- A phase keeps the state consistent, and where the value is bounded the state is at rest. -/
theorem Consistent.optimise : Ensures (Simplex.optimise withAuxiliary) s (fun bounded s' =>
    Consistent start costs s' ∧ (bounded = true → AtRest start withAuxiliary s')) anyFault := by
  simp only [Simplex.optimise, ensures_bind, ensures_get]
  exact h.optimiseWithin hoptions withAuxiliary _

end phase

/-! ## The answer -/

theorem Consistent.expel (h : Consistent start costs s) (hoptions : start.options.NonNegative) {row : ℕ}
    (hrow : row < s.basis.size) :
    Ensures (expelAuxiliary row) s (fun _ s' => Consistent start costs s') anyFault := by
  have hunit : (unit s.basic.length row (one : ℚ)).length = s.basis.size := by
    rw [length_unit, h.shaped.basic]
  obtain ⟨y, hy, -⟩ := h.shaped.basis.exists_backward hunit
  have hproducts : s.basicColumns.map (dot y) = unit s.basis.size row one := by
    rw [← h.shaped.basic]
    exact h.sound.represents.backward hunit hy
  simp only [expelAuxiliary, ensures_bind, ensures_get, hy, entry_some, ensures_pure]
  cases hbest : s.greatestEntry y with
  | none => exact h
  | some best =>
    obtain ⟨position, x⟩ := best
    obtain ⟨⟨entering, hentering, -, rfl⟩, -⟩ := (greatestEntry_spec y).2 position x hbest
    have hlt := h.shaped.lt_of_nonBasic (List.mem_of_getElem? hentering)
    obtain ⟨d, hd, hlength, hcombination⟩ := h.sound.exists_direction hlt
    obtain ⟨_, x, _, -, hx, -⟩ := h.sound.shaped.exists_row hlength hrow
    have hentry : x = dot y (s.column entering) := h.sound.entry_eq_dot hrow hproducts hcombination hx
    dsimp only
    split
    · rename_i hexceeds
      rw [h.options, less_rat, decide_eq_true_eq] at hexceeds
      -- only an entry above the tolerance is pivoted on, and the tolerance is not negative
      have hne : x ≠ 0 := hentry ▸ abs_pos.1 (lt_of_le_of_lt hoptions.pivotTolerance hexceeds)
      have hd' : s.basis.forward? (s.column entering) = some d := hd
      simp only [ensures_bind, hentering, entry_some, ensures_pure, getElem?_columns hlt, hd']
      exact h.pivot hoptions hentering hd' hx hne
    · exact h

/-- What an answer shows of the state in which it is given: no rate is above the tolerance, and the
auxiliary column is above it if there is to be no feasible assignment. -/
def Shows (start s : Simplex ℚ) : Outcome ℚ → Prop
  | .optimal _ objective => Consistent start start.objective s ∧ AtRest start false s ∧
      objective = dot s.assignment s.objective
  | .unbounded => True
  | .infeasible => Consistent start start.auxiliaryCosts s ∧ AtRest start true s ∧
      start.options.feasibilityTolerance < s.point start.auxiliary

section answer

variable (hprogram : program.WellFormed) (hstart : start = ofProgram options program)
  (hoptions : start.options.NonNegative)

include hprogram hstart hoptions

/-- The first phase leads to a consistent state, or shows that there is no feasible assignment. -/
theorem findFeasible_shows (hvalues : start.values ≠ []) :
    Ensures findFeasible start (fun feasible s => (∃ costs, Consistent start costs s) ∧
      (feasible = false → Shows start s .infeasible)) anyFault := by
  have hconsistent := consistent_start hprogram hstart
  have hauxiliary := hconsistent.shaped.auxiliary_lt
  simp only [findFeasible, ensures_bind, ensures_get]
  cases hposition : start.nonBasic.idxOf? start.auxiliary with
  | none => trivial
  | some position =>
    obtain ⟨hlt, hentering, -⟩ := List.idxOf?_eq_some_iff.1 hposition
    obtain ⟨d, hd, hlength, -⟩ := hconsistent.sound.exists_direction hauxiliary
    obtain ⟨value, hvalue, -⟩ := leastRow_spec hvalues
    obtain ⟨_, x, _, -, hx, -⟩ := hconsistent.sound.shaped.exists_row hlength
      (hconsistent.shaped.values ▸ (List.getElem?_eq_some_iff.1 hvalue).1)
    -- the column to enter is constant, so the pivot is on minus one
    have hx' : x = -1 := by
      have hd' := direction_auxiliary hprogram (congrArg withoutThresholds hstart) hd
      rw [hd'] at hx
      exact List.eq_of_mem_replicate (List.mem_of_getElem? hx)
    have hd' : start.basis.forward? (start.column start.auxiliary) = some d := hd
    simp only [ensures_bind, getElem?_columns hauxiliary, entry_some, ensures_pure, hd', ensures_modify]
    refine ensures_mono (hconsistent.pivot hoptions ?_ hd' hx (by rw [hx']; norm_num)) ?_ fun _ => id
    · rw [List.getElem?_eq_getElem hlt, hentering]
    rintro ⟨⟩ s₁ h₁
    refine ensures_mono (h₁.pursuing_auxiliaryCosts.optimise hoptions true) ?_ fun _ => id
    rintro bounded s₂ ⟨h₂, hrest⟩
    cases bounded with
    | false => trivial
    | true =>
      rw [if_neg (by decide), ensures_bind, ensures_get]
      cases hrow : s₂.basic.idxOf? s₂.auxiliary with
      | none => exact ⟨⟨_, h₂⟩, fun hfeasible => absurd hfeasible (by decide)⟩
      | some row =>
        have hlt : row < s₂.basis.size := by
          rw [← h₂.shaped.basic]
          exact (List.idxOf?_eq_some_iff.1 hrow).1
        obtain ⟨_, _, value, -, -, hvalue⟩ := h₂.sound.shaped.exists_row h₂.shaped.values hlt
        have hvalue' : s₂.values[row]? = some value := hvalue
        simp only [ensures_bind, hvalue', entry_some, ensures_pure]
        split
        · rename_i hexceeds
          rw [h₂.options, less_rat, decide_eq_true_eq] at hexceeds
          refine ⟨⟨_, h₂⟩, fun _ => ⟨h₂, hrest rfl, ?_⟩⟩
          exact hexceeds.trans_eq (h₂.sound.point_basic (h₂.sound.auxiliary_row hrow) hvalue).symm
        · rw [ensures_bind]
          refine ensures_mono (h₂.expel hoptions hlt) ?_ fun _ => id
          exact fun _ s₃ h₃ => ⟨⟨_, h₃⟩, fun hfeasible => absurd hfeasible (by decide)⟩

/-- Where the method gives an answer, the state shows it up to the tolerance. -/
theorem run_shows : Ensures run start (fun outcome s => Shows start s outcome) anyFault := by
  have hconsistent := consistent_start hprogram hstart
  -- the second phase, wherever the first one has led
  have hsecond : ∀ {costs s}, Consistent start costs s →
      Ensures (do
        modify fun s => { s with costs := s.objective }
        if ← optimise false then
          let s ← get
          return .optimal s.assignment (dot s.assignment s.objective)
        else return .unbounded : Step (Simplex ℚ) (Outcome ℚ)) s
        (fun outcome s => Shows start s outcome) anyFault := by
    intro costs s h
    simp only [ensures_bind, ensures_modify]
    refine ensures_mono (h.pursuing_objective.optimise hoptions false) ?_ fun _ => id
    rintro bounded s' ⟨h', hrest⟩
    cases bounded with
    | true => exact ⟨h', hrest rfl, rfl⟩
    | false => trivial
  rw [run, ensures_bind, ensures_get]
  split
  · rename_i hinfeasible
    have hvalues : start.values ≠ [] := by
      obtain ⟨value, hmem, -⟩ := List.any_eq_true.1 hinfeasible
      exact List.ne_nil_of_mem hmem
    rw [ensures_bind]
    refine ensures_mono (findFeasible_shows hprogram hstart hoptions hvalues) ?_ fun _ => id
    rintro feasible s ⟨⟨costs, h⟩, hshows⟩
    cases feasible with
    | false => exact hshows rfl
    | true => exact hsecond h
  · rw [pure_bind]
    exact hsecond hconsistent

end answer

end Simplex

end Satisfiability.Linear
