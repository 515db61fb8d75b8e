import Satisfiability.Proofs.Linear.Answers
import Satisfiability.Proofs.Linear.Rows
import Satisfiability.Proofs.Traversal

/-!
# Deciding arithmetic

Over the exact numbers a conjunction of rows is decided by its program (`exists_solveRows`): its
objective is bounded by one, so that the program has an optimum or no feasible assignment, and the
strict rows hold with a positive margin or not at all. So a formula is decided by its normal form
(`NormalForm.solve_decides`).
-/

namespace Satisfiability.Linear

def valueIn (values : NameMap ℚ) (name : String) : ℚ := (values.find? name).getD 0

/-- The answer to a condition on assignments is right: it is an assignment that satisfies the
condition, or none does. -/
def Settles (condition : (String → ℚ) → Prop) : Option (NameMap ℚ) → Prop
  | some values => condition (valueIn values)
  | none => ∀ assignment, ¬ condition assignment

variable {names : List String} {rows : List (Row ℚ)} {x : List ℚ}

theorem exists_witnessOf (hnames : names.Nodup) (h : 2 * names.length ≤ x.length) :
    ∃ values, witnessOf x names = some values ∧
      ∀ name ∈ names, valueIn values name = readOff names x name := by
  have hall : names.zipIdx.mapM (fun place => do
      let plus ← x[2 * place.2]?
      let minus ← x[2 * place.2 + 1]?
      return (place.1, plus - minus)) =
        some (names.map fun name => (name, readOff names x name)) := by
    rw [mapM_eq_some_iff, List.forall₂_map_right_iff]
    have hzip : names = names.zipIdx.map Prod.fst := (List.zipIdx_map_fst 0 names).symm
    conv =>
      arg 3
      rw [hzip]
    rw [List.forall₂_map_right_iff]
    refine List.forall₂_same.2 fun place hplace => ?_
    obtain ⟨hlt, hindex⟩ := idxOf_of_mem_zipIdx hnames hplace
    -- the two columns of a variable stand next to each other
    have hplus : 2 * place.2 < x.length := by omega
    have hminus : 2 * place.2 + 1 < x.length := by omega
    simp only [readOff, hindex, List.getElem?_eq_getElem hplus, List.getElem?_eq_getElem hminus,
      List.getD_eq_getElem _ _ hplus, List.getD_eq_getElem _ _ hminus]
    rfl
  refine ⟨_, congrArg (Option.map KeyMap.ofList) hall, fun name hname => ?_⟩
  have hfind : (KeyMap.ofList (names.map fun name => (name, readOff names x name))).find? name =
      some (readOff names x name) := by
    refine KeyMap.find?_ofList_of_mem (fun y hy => ?_) (List.mem_map_of_mem hname)
    obtain ⟨other, -, heq⟩ := List.mem_map.1 hy
    cases heq
    rfl
  rw [valueIn, hfind, Option.getD_some]

theorem Row.holds_congr {row : Row ℚ} {assignment other : String → ℚ}
    (h : ∀ name ∈ row.coefficients.keys, assignment name = other name) :
    row.Holds assignment ↔ row.Holds other := by
  rw [Row.Holds, Row.Holds, weightedSum_congr h]

theorem mem_variableNamesOf {row : Row ℚ} (hrow : row ∈ rows) {name : String}
    (hname : name ∈ row.coefficients.keys) : name ∈ variableNamesOf rows :=
  mem_ascending.2 (List.mem_flatMap.2 ⟨row, hrow, hname⟩)

theorem exists_solveRows (h : ∀ row ∈ rows, row.coefficients.Ordered) (etaLimit : ℕ) (bland : Bool) :
    ∃ answer, solveRows (.exact etaLimit bland) rows = .ok answer ∧
      Settles (fun assignment => ∀ row ∈ rows, row.Holds assignment) answer := by
  have hnames : (variableNamesOf rows).Nodup := nodup_ascending _
  have hsub : ∀ row ∈ rows, ∀ name ∈ row.coefficients.keys, name ∈ variableNamesOf rows :=
    fun row hrow name => mem_variableNamesOf hrow
  obtain ⟨program, hprogram, hencodes⟩ := exists_programOf hnames h hsub
  obtain ⟨outcome, hsolve, hright⟩ := hencodes.wellFormed.exists_right etaLimit bland
  unfold solveRows
  simp only [hprogram, hsolve]
  cases outcome with
  | infeasible =>
    refine ⟨none, rfl, fun assignment hholds => ?_⟩
    obtain ⟨x, hx, -⟩ := hencodes.exists_feasible hsub hholds
    exact hright x hx
  -- the margin is bounded by one, so the program is not unbounded
  | unbounded =>
    obtain ⟨x, hx, hlt⟩ := hright 1
    exact absurd (hencodes.objective_le_one hx) (not_le.2 hlt)
  | optimal x objective =>
    obtain ⟨hx, hobjective, hgreatest⟩ := hright
    simp only [Options.exact, Scalar.atMost_rat]
    by_cases hnone : (rows.any Row.strict && decide (objective ≤ 0)) = true
    · simp only [hnone, if_pos]
      rw [Bool.and_eq_true, decide_eq_true_eq] at hnone
      refine ⟨none, rfl, fun assignment hholds => ?_⟩
      obtain ⟨y, hy, hpositive⟩ := hencodes.exists_feasible hsub hholds
      have hle := (hgreatest y hy).trans hnone.2
      rw [hencodes.objective, hnone.1, if_pos rfl] at hle
      exact absurd (hpositive hnone.1) (not_lt.2 hle)
    · -- the optimum is positive where a row is strict, so the witness keeps clear of its bound
      simp only [hnone, if_neg, Bool.false_eq_true, not_false_eq_true]
      have hmargin : rows.any Row.strict = true → 0 < margin (variableNamesOf rows) x := by
        intro hany
        rw [hany, Bool.true_and, decide_eq_true_eq, hobjective, hencodes.objective, hany, if_pos rfl] at hnone
        exact not_le.1 hnone
      have hlength : 2 * (variableNamesOf rows).length ≤ x.length := by
        rw [hx.length, hencodes.columns]
        exact Nat.le_add_right _ _
      obtain ⟨values, hvalues, hread⟩ := exists_witnessOf hnames hlength
      simp only [hvalues]
      refine ⟨some values, rfl, fun row hrow => ?_⟩
      rw [Row.holds_congr fun name hname => hread name (hsub row hrow name hname)]
      exact hencodes.holds hx hmargin row hrow

namespace NormalForm

variable {clauses : NormalForm ℚ} {formula : FirstOrder.Formula}

theorem exists_solve (h : ∀ rows ∈ clauses, ∀ row ∈ rows, row.coefficients.Ordered) (etaLimit : ℕ)
    (bland : Bool) : ∃ answer, clauses.solve (.exact etaLimit bland) = .ok answer ∧
      Settles clauses.Holds answer := by
  induction clauses with
  | nil => exact ⟨none, rfl, fun _ ⟨_, hmem, _⟩ => absurd hmem List.not_mem_nil⟩
  | cons rows rest ih =>
    obtain ⟨hrows, hrest⟩ := List.forall_mem_cons.1 h
    obtain ⟨answer, hanswer, hsettles⟩ := exists_solveRows hrows etaLimit bland
    unfold solve
    simp only [hanswer]
    cases answer with
    | some values => exact ⟨some values, rfl, rows, List.mem_cons_self, hsettles⟩
    | none =>
      obtain ⟨answer, hsolve, hrestSettles⟩ := ih hrest
      refine ⟨answer, hsolve, ?_⟩
      cases answer with
      | some values =>
        obtain ⟨others, hmem, hholds⟩ := hrestSettles
        exact ⟨others, List.mem_cons_of_mem _ hmem, hholds⟩
      | none =>
        rintro assignment ⟨others, hmem, hholds⟩
        rcases List.mem_cons.1 hmem with rfl | hmem
        · exact hsettles assignment hholds
        · exact hrestSettles assignment ⟨others, hmem, hholds⟩

/-- Every formula that has a normal form is decided over the exact numbers, for any number of eta
matrices and either rule: the answer is an assignment that makes the formula true, or no assignment
does. -/
theorem solve_decides (h : ofFormula true formula = .ok clauses) (etaLimit : ℕ) (bland : Bool) :
    ∃ answer, clauses.solve (.exact etaLimit bland) = .ok answer ∧
      Settles (fun assignment => (arithmetic assignment).Models formula) answer := by
  have hmeans : ∀ assignment, clauses.Holds assignment ↔ (arithmetic assignment).Models formula :=
    fun assignment => (means_ofFormula h).holds.trans (iff_true_right rfl)
  have hreduced : Means clauses 0 _ := means_ofFormula h
  have hordered : ∀ rows ∈ clauses, ∀ row ∈ rows, row.coefficients.Ordered :=
    fun rows hrows row hrow => (hreduced.reduced rows hrows row hrow).ordered
  obtain ⟨answer, hsolve, hsettles⟩ := exists_solve hordered etaLimit bland
  refine ⟨answer, hsolve, ?_⟩
  rwa [← funext fun assignment => propext (hmeans assignment)]

/-- The formula `(GS(plus(mult(2,x),z),1)&~GS(z,1))`, with a strict row and one that is not. -/
def mixed : FirstOrder.Formula :=
  .and (.relation "GS" [.app "plus" [.app "mult" [.const "2", .var "x"], .var "z"], .const "1"])
    (.not (.relation "GS" [.var "z", .const "1"]))

theorem solve_decides_mixed : ∃ clauses, ofFormula true mixed = .ok clauses ∧
    ∃ answer, clauses.solve (.exact 0 false) = .ok answer ∧
      Settles (fun assignment => (arithmetic assignment).Models mixed) answer :=
  ⟨_, rfl, solve_decides rfl 0 false⟩

end NormalForm

end Satisfiability.Linear
