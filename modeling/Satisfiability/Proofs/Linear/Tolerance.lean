import Mathlib.LinearAlgebra.Matrix.AbsoluteValue
import Satisfiability.Proofs.Linear.Decision
import Satisfiability.Proofs.Linear.Determinants
import Satisfiability.Proofs.Linear.Reals

/-!
# Answers up to the tolerance

With thresholds above zero a formula may be told to have no solution although it has some: the
margin of its strict rows may be above zero but not above the tolerance (`solve_misses_narrow`).
This takes a program with a determinant as great as the inverse of the tolerance. For the other
formulas that can be read, no real numbers make the formula true if no solution is found
(`not_models_of_solve_none`).
-/

namespace Satisfiability.Linear

open Scalar

/-! ## Programs -/

namespace Program

variable {program : Program ℚ} {options : Options ℚ}

theorem WellFormed.exists_shows (h : program.WellFormed) (hoptions : options.NonNegative)
    {outcome : Outcome ℚ} (hsolve : program.solve options = .ok outcome) :
    ∃ s, Simplex.Shows (Simplex.ofProgram options program) s outcome := by
  have hrun : Simplex.run.run.run (Simplex.ofProgram options program) =
      (.ok outcome, (Simplex.run.run.run (Simplex.ofProgram options program)).2) := Prod.ext hsolve rfl
  have hshows := Step.ensures_ok (Simplex.run_shows h rfl hoptions) hrun
  exact ⟨_, hshows⟩

end Program

namespace Simplex

theorem determinantsBelow_of_entries {s : Simplex ℚ} {greatest bound : ℚ} (hgreatest : 0 ≤ greatest)
    (hentries : ∀ column ∈ s.columns, ∀ x ∈ column, |x| ≤ greatest)
    (hbound : s.basis.size.factorial * greatest ^ s.basis.size < bound) : s.DeterminantsBelow bound := by
  intro columns
  have hcolumn : ∀ j, ∀ x ∈ s.column j, |x| ≤ greatest := by
    intro j
    rw [column, List.getD_eq_getElem?_getD]
    cases hj : s.columns[j]? with
    | none => exact List.forall_mem_nil _
    | some entries => exact hentries entries (List.mem_of_getElem? hj)
  have hentry : ∀ i k,
      (AbsoluteValue.abs : AbsoluteValue ℚ ℚ) (s.matrix s.basis.size columns i k) ≤ greatest := by
    intro i k
    change |(s.column (columns k)).getD i 0| ≤ greatest
    rw [List.getD_eq_getElem?_getD]
    cases hi : (s.column (columns k))[(i : ℕ)]? with
    | none => rwa [Option.getD_none, abs_zero]
    | some x => exact hcolumn _ x (List.mem_of_getElem? hi)
  have hdet := Matrix.det_le hentry
  rw [Fintype.card_fin, nsmul_eq_mul] at hdet
  exact lt_of_le_of_lt hdet hbound

end Simplex

/-! ## Rows -/

section rows

variable {rows : List (Row ℚ)} {options : Options ℚ} {bound : ℚ}

theorem not_holds_of_solveRows (hoptions : options.NonNegative)
    (htolerance : options.feasibilityTolerance * bound ≤ 1)
    (hordered : ∀ row ∈ rows, row.coefficients.Ordered) (hintegral : ∀ row ∈ rows, row.Integral)
    (hbound : ∀ program, programOf (variableNamesOf rows) rows = .ok program →
      (Simplex.ofProgram options program).DeterminantsBelow bound)
    (hnone : solveRows options rows = .ok none) (assignment : String → ℚ) :
    ¬ ∀ row ∈ rows, row.Holds assignment := by
  intro hholds
  have hsub : ∀ row ∈ rows, ∀ name ∈ row.coefficients.keys, name ∈ variableNamesOf rows :=
    fun row hrow name => mem_variableNamesOf hrow
  have hnames : (variableNamesOf rows).Nodup := nodup_ascending _
  obtain ⟨program, hprogram, hencodes⟩ := exists_programOf hnames hordered hsub
  -- the assignment is a feasible point of the program, with a margin above zero if some row is strict
  obtain ⟨x, hx, hmargin⟩ := hencodes.exists_feasible hsub hholds
  have hwhole := integral_of_programOf hintegral hprogram
  unfold solveRows at hnone
  simp only [hprogram] at hnone
  cases hsolve : program.solve options with
  | error fault =>
    rw [hsolve] at hnone
    cases hnone
  | ok outcome =>
    obtain ⟨s, hshows⟩ := hencodes.wellFormed.exists_shows hoptions hsolve
    rw [hsolve] at hnone
    cases outcome with
    | infeasible =>
      exact Simplex.not_feasible_of_shows hencodes.wellFormed hwhole rfl (hbound program hprogram) htolerance
        hoptions hshows x hx
    | unbounded => cases hnone
    | optimal values objective =>
      dsimp only at hnone
      split at hnone
      · rename_i hmissed
        rw [Bool.and_eq_true, atMost_rat, decide_eq_true_eq] at hmissed
        have hnonpos := Simplex.objectiveValue_nonpos_of_shows hencodes.wellFormed hwhole rfl
          (hbound program hprogram) htolerance hshows hmissed.2 hx
        rw [hencodes.objective, hmissed.1, if_pos rfl] at hnonpos
        exact absurd (hmargin hmissed.1) (not_lt.2 hnonpos)
      · split at hnone <;> cases hnone

end rows

namespace NormalForm

variable {clauses : NormalForm ℚ} {options : Options ℚ} {bound : ℚ}

theorem solveRows_of_solve (h : clauses.solve options = .ok none) :
    ∀ rows ∈ clauses, solveRows options rows = .ok none := by
  induction clauses with
  | nil => exact List.forall_mem_nil _
  | cons rows rest ih =>
    unfold solve at h
    split at h
    · cases h
    · cases h
    · rename_i hrows
      exact List.forall_mem_cons.2 ⟨hrows, ih h⟩

/-- For no conjunction is there a square matrix with columns of its program, its slacks and the
auxiliary column whose determinant has this magnitude or above. -/
def DeterminantsBelow (clauses : NormalForm ℚ) (bound : ℚ) : Prop :=
  ∀ rows ∈ clauses, ∀ program, programOf (variableNamesOf rows) rows = .ok program →
    (Simplex.ofProgram .standard program).DeterminantsBelow bound

/-- With the default configuration, a formula that is told to have no solution is true of no real
numbers, if all determinants are below the inverse of the tolerance. -/
theorem not_models_of_solve_none {text : String} {formula : FirstOrder.Formula}
    (hparse : FirstOrder.Formula.parse text = .ok formula) (haccepted : parse text = .ok clauses)
    (hbound : clauses.DeterminantsBelow (10 ^ 9)) (hnone : clauses.solve .standard = .ok none)
    (assignment : String → ℝ) : ¬ (arithmeticIn assignment).Models formula := by
  intro hmodels
  have hformula : ofFormula true formula = .ok clauses := by
    rwa [parse, hparse] at haccepted
  -- the method is about rational numbers, and there are some if there are real ones
  obtain ⟨values, hvalues⟩ := exists_rational hformula hmodels
  have hmeans : clauses.Means values _ := means_ofFormula hformula
  obtain ⟨rows, hrows, hholds⟩ := hmeans.holds.2 (iff_of_true hvalues rfl)
  obtain ⟨hnamed, -⟩ := FirstOrder.Formula.parse_spec hparse
  have htolerance : Options.standard.feasibilityTolerance * 10 ^ 9 ≤ 1 := by norm_num [Options.standard]
  exact not_holds_of_solveRows Options.nonNegative_standard htolerance
    (fun row hrow => (hmeans.reduced rows hrows row hrow).ordered)
    (integral_ofFormula hnamed hformula rows hrows)
    (hbound rows hrows) (solveRows_of_solve hnone rows hrows) values hholds

/-- A test that a text has a normal form for which no solution is found. -/
def unsolved (text : String) (test : NormalForm ℚ → Bool) : Bool :=
  (parse (α := ℚ) text).toOption.any fun clauses =>
    (clauses.solve .standard).toOption.any Option.isNone && test clauses

theorem exists_of_unsolved {text : String} {test : NormalForm ℚ → Bool} (h : unsolved text test = true) :
    ∃ clauses, parse text = .ok clauses ∧ clauses.solve .standard = .ok none ∧ test clauses = true := by
  obtain ⟨clauses, haccepted, htest⟩ := Step.exists_ok h
  rw [Bool.and_eq_true] at htest
  obtain ⟨answer, hsolve, hnone⟩ := Step.exists_ok htest.1
  rw [Option.isNone_iff_eq_none.1 hnone] at hsolve
  exact ⟨clauses, haccepted, hsolve, htest.2⟩

/-- A test that all programs have few rows and no entry of magnitude above one. -/
def small (bound : ℚ) (clauses : NormalForm ℚ) : Bool :=
  clauses.all fun rows => (programOf (variableNamesOf rows) rows).toOption.all fun program =>
    decide ((Simplex.ofProgram .standard program).basis.size.factorial < bound) &&
      (Simplex.ofProgram .standard program).columns.all fun column => column.all fun x => decide (|x| ≤ 1)

theorem determinantsBelow_of_small (h : small bound clauses = true) : clauses.DeterminantsBelow bound := by
  intro rows hrows program hprogram
  have htest := List.all_eq_true.1 h rows hrows
  rw [hprogram] at htest
  change (_ && _) = true at htest
  rw [Bool.and_eq_true, decide_eq_true_eq] at htest
  refine Simplex.determinantsBelow_of_entries zero_le_one (fun column hcolumn x hx => ?_) ?_
  · exact of_decide_eq_true (List.all_eq_true.1 (List.all_eq_true.1 htest.2 column hcolumn) x hx)
  · rw [one_pow, mul_one]
    exact htest.1

def opposed : String := "((K(x,3)|K(x,y))&(GS(x,3)&GS(x,y)))"

theorem not_models_of_solve_none_opposed : ∃ formula clauses,
    FirstOrder.Formula.parse opposed = .ok formula ∧ parse opposed = .ok clauses ∧
    clauses.DeterminantsBelow (10 ^ 9) ∧ clauses.solve .standard = .ok none ∧
    ∀ assignment : String → ℝ, ¬ (arithmeticIn assignment).Models formula := by
  have hparses : (FirstOrder.Formula.parse opposed).toOption.any fun _ => true := by decide +kernel
  obtain ⟨formula, hparse, -⟩ := Step.exists_ok hparses
  have hunsolved : unsolved opposed (small (10 ^ 9)) = true := by decide +kernel
  obtain ⟨clauses, haccepted, hnone, hsmall⟩ := exists_of_unsolved hunsolved
  have hbound := determinantsBelow_of_small hsmall
  exact ⟨formula, clauses, hparse, haccepted, hbound, hnone,
    not_models_of_solve_none hparse haccepted hbound hnone⟩

/-- The formula `(K(0,x)&K(mult(999999999,x),1))`, of a number between zero and one 999999999th. -/
def narrow : FirstOrder.Formula :=
  .and (.relation "K" [.const "0", .var "x"])
    (.relation "K" [.app "mult" [.const "999999999", .var "x"], .const "1"])

theorem models_narrow {x : ℝ} (hpositive : 0 < x) (hsmall : 999999999 * x < 1) :
    (arithmeticIn fun _ => x).Models narrow := by
  have hzero : (arithmeticIn fun _ => x).const "0" = (0 : ℚ) := congrArg Rat.cast (by decide +kernel)
  have hscale : (arithmeticIn fun _ => x).const "999999999" = (999999999 : ℚ) :=
    congrArg Rat.cast (by decide +kernel)
  have hone : (arithmeticIn fun _ => x).const "1" = (1 : ℚ) := congrArg Rat.cast (by decide +kernel)
  constructor
  · change (arithmeticIn fun _ => x).const "0" < x
    rwa [hzero, Rat.cast_zero]
  · change [(arithmeticIn fun _ => x).const "999999999", x].prod < (arithmeticIn fun _ => x).const "1"
    rwa [hscale, hone, Rat.cast_one, List.prod_pair, Rat.cast_ofNat]

/-- No solution is found although there are some: the greatest margin is `1 / 10 ^ 9`, which is not
above the tolerance. -/
theorem solve_misses_narrow : ∃ clauses,
    FirstOrder.Formula.parse "(K(0,x)&K(mult(999999999,x),1))" = .ok narrow ∧
    parse "(K(0,x)&K(mult(999999999,x),1))" = .ok clauses ∧ clauses.solve .standard = .ok none ∧
    ∃ assignment : String → ℝ, (arithmeticIn assignment).Models narrow := by
  have hparses : (FirstOrder.Formula.parse "(K(0,x)&K(mult(999999999,x),1))").toOption.any
      fun formula => decide (formula = narrow) := by decide +kernel
  obtain ⟨formula, hparse, hformula⟩ := Step.exists_ok hparses
  rw [of_decide_eq_true hformula] at hparse
  have hunsolved : unsolved "(K(0,x)&K(mult(999999999,x),1))" (fun _ => true) = true := by decide +kernel
  obtain ⟨clauses, haccepted, hnone, -⟩ := exists_of_unsolved hunsolved
  exact ⟨clauses, hparse, haccepted, hnone, _, models_narrow (x := 1 / 2000000000) (by norm_num) (by norm_num)⟩

end NormalForm

end Satisfiability.Linear
