import Satisfiability.Proofs.Linear.FirstPhase

/-!
# The phases of the method

At every stage the method stands at a vertex of its program: in the first phase one with the
auxiliary column, in the second phase a feasible one without it (`Stands`). Each step keeps this
(`stands_of_transition`), and so the answer at the end is right: where no rate is above zero the
assignment is optimal (`right_optimal`), and where nothing falls in a direction the value has no
bound (`right_unbounded`).
-/

namespace Satisfiability.Linear.Simplex

open Scalar Step Finset Pursuit

variable {program : Program ℚ} {start s s' : Simplex ℚ} {etaLimit : ℕ} {bland : Bool}

/-! ## The second phase -/

theorem point_auxiliary (hprogram : program.WellFormed)
    (hstart : start = ofProgram (.exact etaLimit bland) program) (hauxiliary : start.auxiliary ∉ s.basic) :
    s.point (program.columns + program.constraints.length) = 0 := by
  rw [← auxiliary_eq hprogram hstart]
  exact spread_of_not_basic hauxiliary _

/-- Where no rate is above zero, no feasible assignment has a greater value than the present one. -/
theorem Sound.objectiveValue_le (hprogram : program.WellFormed)
    (hstart : start = ofProgram (.exact etaLimit bland) program) (h : Sound start start.objective s)
    (hoptimal : ∀ j < start.columns.length, Allowed start false j → h.vertex.rate j ≤ 0) (other : List ℚ)
    (hother : program.Feasible other) : program.objectiveValue other ≤ dot s.assignment s.objective := by
  have hindex := auxiliary_eq hprogram hstart
  subst hstart
  have hle := h.vertex.value_le _ hoptimal (extension_mem_solutions hprogram hother)
    (fun j _ => extension_nonneg hother j) fun j _ hnot => by
      obtain rfl : j = _ := not_not.1 fun hne => hnot (Or.inr hne)
      rw [hindex, extension_auxiliary hother]
  rw [value_objective _ hprogram, structuralPart_extension hother] at hle
  exact hle.trans_eq (value_point _ hprogram h)

section second

variable (hprogram : program.WellFormed) (hstart : start = ofProgram (.exact etaLimit bland) program)
  (h : Sound start start.objective s) (hvalues : s.NonNegative) (hauxiliary : start.auxiliary ∉ s.basic)

include hprogram hstart h hvalues hauxiliary

/-- Where no rate is above zero, the assignment is optimal. -/
theorem right_optimal (hoptimal : ∀ j < start.columns.length, Allowed start false j →
    h.vertex.rate j ≤ 0) :
    (Outcome.optimal s.assignment (dot s.assignment s.objective)).Right program := by
  have hzero := point_auxiliary hprogram hstart hauxiliary
  have hgreatest := h.objectiveValue_le hprogram hstart hoptimal
  subst hstart
  refine ⟨?_, dot_assignment_objective hprogram h, hgreatest⟩
  rw [assignment_eq h]
  exact feasible_of_solution hprogram h.vertex.solves (h.point_nonneg hvalues) hzero

/-- Where nothing falls in a direction of growing value, there is no bound. -/
theorem right_unbounded {entering : ℕ} {direction : ℕ → ℚ} (hleads : Leads h.vertex entering direction)
    (hallowed : Allowed start false entering) (hrate : 0 < h.vertex.rate entering)
    (hrises : ∀ j, 0 ≤ direction j) : Outcome.unbounded.Right program := by
  intro bound
  have hzero := point_auxiliary hprogram hstart hauxiliary
  have hindex := auxiliary_eq hprogram hstart
  have hentering : entering ≠ start.auxiliary := hallowed.resolve_left Bool.false_ne_true
  have hdirection : direction start.auxiliary = 0 :=
    hleads.elsewhere _ (fun hmem => hauxiliary (List.mem_toFinset.1 hmem)) (Ne.symm hentering)
  subst hstart
  set value := (pursuit _ (ofProgram (.exact etaLimit bland) program).objective).value s.point with hvalue
  set step := max 0 ((bound - value) / h.vertex.rate entering + 1) with hstep
  have hstep_nonneg : 0 ≤ step := le_max_left _ _
  refine ⟨structuralPart program (along s.point direction step), feasible_of_solution hprogram
    (hleads.keeps _ h.vertex.solves step) (fun j => ?_) ?_, ?_⟩
  · exact add_nonneg (h.point_nonneg hvalues j) (mul_nonneg hstep_nonneg (hrises j))
  · rw [hindex] at hdirection
    rw [along, hzero, hdirection, mul_zero, add_zero]
  · rw [← value_objective (.exact etaLimit bland) hprogram, hleads.value_add, ← hvalue]
    have hle : (bound - value) / h.vertex.rate entering + 1 ≤ step := le_max_right _ _
    have hproduct := mul_le_mul_of_nonneg_right hle hrate.le
    rw [add_mul, div_mul_cancel₀ _ hrate.ne', one_mul] at hproduct
    linarith

omit hprogram hstart in
theorem Sound.improve_second : Ensures (Simplex.improve false) s (fun answer s' =>
      (answer = some true ∧ s' = s ∧ ∀ j < start.columns.length, Allowed start false j →
        h.vertex.rate j ≤ 0) ∨
      (answer = some false ∧ s' = s ∧ ∃ entering direction, Leads h.vertex entering direction ∧
        Allowed start false entering ∧ 0 < h.vertex.rate entering ∧ ∀ j, 0 ≤ direction j) ∨
      (answer = none ∧ s'.NonNegative ∧ start.auxiliary ∉ s'.basic ∧ s'.iterations = s.iterations + 1 ∧
        ∃ (h' : Sound start start.objective s') (entering leaving : ℕ) (direction : ℕ → ℚ),
          Pivots h.vertex h'.vertex entering leaving direction ∧
          (s.usesBland = true →
            Bland (Allowed start false) h.vertex h'.vertex entering leaving direction))) never := by
  refine ensures_of_never (h.improve hvalues false) ?_
  rintro answer s' (hoptimal | hunbounded |
    ⟨hanswer, hcount, h', entering, leaving, direction, hpivots, hallowed, hbland⟩)
  · exact Or.inl hoptimal
  · exact Or.inr (Or.inl hunbounded)
  · refine Or.inr (Or.inr ⟨hanswer, h'.nonNegative hpivots.point_nonneg, fun hmem => ?_, hcount, h',
      entering, leaving, direction, hpivots, hbland⟩)
    rcases hpivots.mem_basis_iff.1 (List.mem_toFinset.2 hmem) with heq | ⟨-, hbasic⟩
    · exact hallowed.resolve_left Bool.false_ne_true heq.symm
    · exact hauxiliary (List.mem_toFinset.1 hbasic)

end second

/-! ## Steps -/

def Stands (program : Program ℚ) (start : Simplex ℚ) : Stage ℚ × Simplex ℚ → Prop
  | (.start, s) => s = start
  | (.first, s) => Sound start start.auxiliaryCosts s ∧ s.NonNegative
  | (.second, s) => Sound start start.objective s ∧ s.NonNegative ∧ start.auxiliary ∉ s.basic
  | (.finished outcome, _) => outcome.Right program

theorem Sound.pursuing_objective {costs : List ℚ} (h : Sound start costs s) :
    Sound start start.objective (s.pursuing s.objective) := by
  have hpursuing := h.pursuing s.objective h.shaped.objective
  rwa [h.retains.objective] at hpursuing ⊢

theorem Sound.pursuing_auxiliaryCosts {costs : List ℚ} (h : Sound start costs s) :
    Sound start start.auxiliaryCosts (s.pursuing s.auxiliaryCosts) := by
  have hcosts : s.auxiliaryCosts = start.auxiliaryCosts := by
    rw [auxiliaryCosts, auxiliaryCosts, h.retains.auxiliary, h.retains.columns]
  have hpursuing := h.pursuing s.auxiliaryCosts (length_unit _ _ _)
  rwa [hcosts] at hpursuing ⊢

theorem Sound.auxiliary_row {costs : List ℚ} (h : Sound start costs s) {row : ℕ}
    (hrow : s.basic.idxOf? s.auxiliary = some row) : s.basic[row]? = some start.auxiliary := by
  obtain ⟨hlt, hbasic, -⟩ := List.idxOf?_eq_some_iff.1 hrow
  rw [List.getElem?_eq_getElem hlt, hbasic, h.retains.auxiliary]

/-! ### What a run of one pivot shows -/

theorem Sound.answer_first (h : Sound start start.auxiliaryCosts s) (hvalues : s.NonNegative)
    {bounded : Bool} (hrun : (Simplex.improve true).run.run s = (.ok (some bounded), s')) :
    s' = s ∧ bounded = true ∧ ∀ j < start.columns.length, h.vertex.rate j ≤ 0 := by
  rcases ensures_ok (h.improve_first hvalues) hrun with ⟨hanswer, hs', hoptimal⟩ | ⟨hanswer, -⟩
  · exact ⟨hs', Option.some.inj hanswer, hoptimal⟩
  · cases hanswer

theorem Sound.improves_first (h : Sound start start.auxiliaryCosts s) (hvalues : s.NonNegative)
    (hrun : Improves true s s') : s'.NonNegative ∧ s'.iterations = s.iterations + 1 ∧
      ∃ (h' : Sound start start.auxiliaryCosts s') (entering leaving : ℕ) (direction : ℕ → ℚ),
        Pivots h.vertex h'.vertex entering leaving direction ∧
        (s.usesBland = true →
          Bland (Allowed start true) h.vertex h'.vertex entering leaving direction) := by
  rcases ensures_ok (h.improve_first hvalues) hrun with ⟨hanswer, -⟩ | ⟨-, himproved⟩
  · cases hanswer
  · exact himproved

section

variable (h : Sound start start.objective s) (hvalues : s.NonNegative)
  (hauxiliary : start.auxiliary ∉ s.basic)

include hvalues hauxiliary

theorem Sound.answer_second {bounded : Bool}
    (hrun : (Simplex.improve false).run.run s = (.ok (some bounded), s')) :
    s' = s ∧ (bounded = true → ∀ j < start.columns.length, Allowed start false j → h.vertex.rate j ≤ 0) ∧
      (bounded = false → ∃ entering direction, Leads h.vertex entering direction ∧
        Allowed start false entering ∧ 0 < h.vertex.rate entering ∧ ∀ j, 0 ≤ direction j) := by
  rcases ensures_ok (h.improve_second hvalues hauxiliary) hrun with
    ⟨hanswer, hs', hoptimal⟩ | ⟨hanswer, hs', hunbounded⟩ | ⟨hanswer, -⟩
  · obtain rfl := Option.some.inj hanswer
    exact ⟨hs', fun _ => hoptimal, fun h => absurd h.symm Bool.false_ne_true⟩
  · obtain rfl := Option.some.inj hanswer
    exact ⟨hs', fun h => absurd h Bool.false_ne_true, fun _ => hunbounded⟩
  · cases hanswer

theorem Sound.improves_second (hrun : Improves false s s') :
    s'.NonNegative ∧ start.auxiliary ∉ s'.basic ∧ s'.iterations = s.iterations + 1 ∧
      ∃ (h' : Sound start start.objective s') (entering leaving : ℕ) (direction : ℕ → ℚ),
        Pivots h.vertex h'.vertex entering leaving direction ∧
        (s.usesBland = true →
          Bland (Allowed start false) h.vertex h'.vertex entering leaving direction) := by
  rcases ensures_ok (h.improve_second hvalues hauxiliary) hrun with
    ⟨hanswer, -⟩ | ⟨hanswer, -⟩ | ⟨-, himproved⟩
  · cases hanswer
  · cases hanswer
  · exact himproved

end

theorem Sound.eq_zero_of_expelled {costs : List ℚ} (h : Sound start costs s) (hvalues : s.NonNegative)
    {row : ℕ} {value : ℚ} (hvalue : s.values[row]? = some value)
    (hzero : less s.options.feasibilityTolerance value = false) : value = 0 := by
  rw [h.options.feasibilityTolerance] at hzero
  exact le_antisymm (not_lt.1 (of_decide_eq_false hzero)) (hvalues value (List.mem_of_getElem? hvalue))

/-- Each step leads from where the method stands to where it stands next. -/
theorem stands_of_transition (hprogram : program.WellFormed)
    (hstart : start = ofProgram (.exact etaLimit bland) program) {p q : Stage ℚ × Simplex ℚ}
    (hp : Stands program start p) (h : Transition p q) : Stands program start q := by
  cases h with
  | @feasible s hvalues =>
    obtain rfl : s = start := hp
    refine ⟨(sound_start hprogram hstart).pursuing_objective, fun value hmem => ?_, fun hmem => ?_⟩
    · subst hstart
      refine not_lt.1 fun hlt => Bool.false_ne_true (hvalues.symm.trans ?_)
      exact List.any_eq_true.2 ⟨value, hmem, decide_eq_true hlt⟩
    · have hindex := auxiliary_eq hprogram hstart
      subst hstart
      obtain ⟨i, hi, heq⟩ := List.mem_map.1 hmem
      rw [hindex] at heq
      exact absurd (Nat.add_left_cancel heq) (List.mem_range.1 hi).ne
  | @admitted s s' position direction hvalues hposition hdirection hrun =>
    obtain rfl : s = start := hp
    have henters := auxiliary_enters hprogram hstart hvalues hposition hdirection
    obtain ⟨hsound, hnonneg, -⟩ := ensures_ok henters hrun
    exact ⟨hsound.pursuing_auxiliaryCosts, hnonneg⟩
  | improved himprovement =>
    cases himprovement with
    | first hrun =>
      obtain ⟨hsound, hnonneg⟩ := hp
      obtain ⟨hnonneg', -, h', -⟩ := hsound.improves_first hnonneg hrun
      exact ⟨h', hnonneg'⟩
    | second hrun =>
      obtain ⟨hsound, hnonneg, hauxiliary⟩ := hp
      obtain ⟨hnonneg', hauxiliary', -, h', -⟩ := hsound.improves_second hnonneg hauxiliary hrun
      exact ⟨h', hnonneg', hauxiliary'⟩
  | infeasible hrun hrow hvalue hpositive =>
    obtain ⟨hsound, hnonneg⟩ := hp
    obtain ⟨rfl, -, hoptimal⟩ := hsound.answer_first hnonneg hrun
    -- a positive value of the auxiliary column at the optimum rules out a feasible point
    refine not_feasible_of_auxiliary hprogram hstart hsound hoptimal ?_
    rw [hsound.point_basic (hsound.auxiliary_row hrow) hvalue]
    rw [hsound.options.feasibilityTolerance] at hpositive
    exact of_decide_eq_true hpositive
  | left hrun hrow =>
    obtain ⟨hsound, hnonneg⟩ := hp
    obtain ⟨rfl, -⟩ := hsound.answer_first hnonneg hrun
    refine ⟨hsound.pursuing_objective, hnonneg, fun hmem => List.idxOf?_eq_none_iff.1 hrow ?_⟩
    rw [hsound.retains.auxiliary]
    exact hmem
  | @expelled s s' s'' row value hrun hrow hvalue hzero hexpel =>
    obtain ⟨hsound, hnonneg⟩ := hp
    obtain ⟨rfl, -⟩ := hsound.answer_first hnonneg hrun
    obtain rfl := hsound.eq_zero_of_expelled hnonneg hvalue hzero
    obtain ⟨hsound', hnonneg', hauxiliary, -⟩ :=
      ensures_ok (hsound.expel hprogram hstart hnonneg hrow hvalue) hexpel
    exact ⟨hsound'.pursuing_objective, hnonneg', hauxiliary⟩
  | optimal hrun =>
    obtain ⟨hsound, hnonneg, hauxiliary⟩ := hp
    obtain ⟨rfl, hoptimal, -⟩ := hsound.answer_second hnonneg hauxiliary hrun
    exact right_optimal hprogram hstart hsound hnonneg hauxiliary (hoptimal rfl)
  | unbounded hrun =>
    obtain ⟨hsound, hnonneg, hauxiliary⟩ := hp
    obtain ⟨rfl, -, hunbounded⟩ := hsound.answer_second hnonneg hauxiliary hrun
    obtain ⟨entering, direction, hleads, hallowed, hrate, hrises⟩ := hunbounded rfl
    exact right_unbounded hprogram hstart hsound hnonneg hauxiliary hleads hallowed hrate hrises

/-- Wherever the method gets from its start, it stands at a vertex, or has the right answer. -/
theorem stands_of_reaches (hprogram : program.WellFormed)
    (hstart : start = ofProgram (.exact etaLimit bland) program) {p : Stage ℚ × Simplex ℚ}
    (h : Reaches (.start, start) p) : Stands program start p := by
  induction h with
  | refl => rfl
  | tail _ htransition ih => exact stands_of_transition hprogram hstart ih htransition

end Satisfiability.Linear.Simplex
