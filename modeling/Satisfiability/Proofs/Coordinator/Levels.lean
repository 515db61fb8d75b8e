import Satisfiability.Problem
import Satisfiability.Proofs.Context.Building
import Satisfiability.Proofs.FirstOrder.Semantics

/-!
# Levels shared with the theory

The theory opens a level only for a level of the context with a literal of the theory, and a level
of the context without one shares the level of the theory below it. If a literal of the theory
becomes true on such a level later on, it is asserted on the shared level (`assertAt_shared`), and a
backjump to another level of the context that shares it leaves the assertion in place
(`assertion_survives`). From then on the theory reasons from a literal that need not be true. A
search can so fail, or answer that a satisfiable problem is not satisfiable.
-/

namespace Satisfiability.Coordinator

open Search Step Trail
open Equality (Solver)

variable {ρ : Type} {c : Coordinator ρ} {level lower : Nat} {literal : Literal} {theory : Solver}

theorem value?_of_assert {solver : Solver} (hassert : solver.assert literal = .ok theory) :
    theory.value? literal.atom = some literal.positive ∧ theory.level = solver.level := by
  unfold Solver.assert at hassert
  split at hassert
  · exact absurd hassert (by simp)
  · split at hassert
    · rename_i value hvalue
      split at hassert
      · rename_i heq
        cases hassert
        exact ⟨hvalue.trans (congrArg some heq), rfl⟩
      · exact absurd hassert (by simp)
    · rename_i hnone
      have hliterals : (solver.assertions.push literal).literals =
          solver.assertions.literals ++ [literal] := by
        rw [← map_fst_marked, marked_push, List.map_append, map_fst_marked]
        rfl
      -- the literal found is the last one, as none of the others is of its atom
      have hlast : ((solver.assertions.push literal).literals.find? (·.atom == literal.atom)).map
          Literal.positive = some literal.positive := by
        rw [hliterals, List.find?_append, Option.map_eq_none_iff.1 hnone]
        simp
      split at hassert <;> cases hassert <;> exact ⟨hlast, level_push _ _⟩

/-- A literal is asserted where the theory stands if its level has a level of the theory already. -/
theorem assertAt_shared (hlevel : level < c.theoryLevels.length)
    (hassert : c.theory.assert literal = .ok theory) :
    Ensures (assertAt level literal) c (fun _ c' => c' = { c with theory }) never := by
  have hpadded : c.theoryLevels ++ List.replicate (level - c.theoryLevels.length) c.theory.level =
      c.theoryLevels := by
    rw [Nat.sub_eq_zero_of_le (Nat.le_of_lt hlevel), List.replicate_zero, List.append_nil]
  simp only [assertAt, ensures_bind, ensures_modify, ensures_get, hpadded,
    if_neg (Nat.ne_of_gt hlevel), hassert, orTheoryFault, ensures_pure]

/-- A backjump to a level that goes with the present one of the theory takes nothing back. -/
theorem followBackjump_shared (hlower : c.theoryLevel? lower = some c.theory.level) :
    Ensures (followBackjump lower) c (fun _ c' => c'.theory = c.theory) never := by
  have hbacktrack : c.theory.backtrack c.theory.level = .ok c.theory := by
    simp [Solver.backtrack, Solver.closeLevels]
  simp only [followBackjump, ensures_bind, ensures_get, hlower, Option.getD_some, hbacktrack,
    orTheoryFault, ensures_pure, ensures_set]

/-- What is asserted on a shared level survives a backjump to another level that shares it. -/
theorem assertion_survives (hlevel : level < c.theoryLevels.length)
    (hlower : c.theoryLevel? lower = some c.theory.level)
    (hassert : c.theory.assert literal = .ok theory) :
    ∃ c', (do assertAt level literal; followBackjump lower : Step (Coordinator ρ) Unit).run.run c =
      (.ok (), c') ∧ c'.theory.value? literal.atom = some literal.positive := by
  obtain ⟨hvalue, htheory⟩ := value?_of_assert hassert
  have hsurvives : Ensures (do assertAt level literal; followBackjump lower) c
      (fun _ c' => c'.theory = theory) never := by
    rw [ensures_bind]
    refine ensures_of_never (assertAt_shared hlevel hassert) ?_
    rintro _ _ rfl
    refine followBackjump_shared ?_
    rw [htheory]
    exact hlower
  obtain ⟨_, c', hrun, hsame⟩ := run_of_ensures hsurvives
  exact ⟨c', hrun, hsame ▸ hvalue⟩

/-- A theory of one equality, with two levels of a context that share its ground level. -/
def sharing : Coordinator SplitMix where
  context := Context.empty {} ⟨0⟩
  theory := Solver.ofAtoms [(0, .equality (.var "x") (.var "y"))]
  theoryLevels := [0, 0]

theorem assertion_survives_on_ground :
    ∃ theory, sharing.theory.assert ⟨0, true⟩ = .ok theory ∧
      ∃ c', (do assertAt 1 ⟨0, true⟩; followBackjump 0 : Step (Coordinator SplitMix) Unit).run.run
        sharing = (.ok (), c') ∧ c'.theory.value? 0 = some true :=
  ⟨_, rfl, assertion_survives (by decide) rfl rfl⟩

def fault? {α : Type} : Except Fault α → Option Fault
  | .ok _ => none
  | .error fault => some fault

theorem eq_error_of_fault? {α : Type} {result : Except Fault α} {fault : Fault}
    (h : fault? result = some fault) : result = .error fault := by
  cases result with
  | ok a => exact absurd h (by simp [fault?])
  | error other => exact congrArg Except.error (Option.some.inj h)

/-- Three equalities between three variables, with clauses about them and one more atom. -/
def triangle : List Context.Part :=
  [.atom "p", .atom "c", .atom "b", .atom "a",
    .clause [⟨2, true⟩, ⟨0, true⟩, ⟨3, false⟩], .clause [⟨2, true⟩, ⟨1, false⟩, ⟨3, true⟩],
    .clause [⟨1, false⟩, ⟨0, false⟩], .clause [⟨3, false⟩, ⟨1, false⟩, ⟨2, false⟩],
    .clause [⟨2, true⟩, ⟨0, false⟩], .clause [⟨3, true⟩, ⟨0, true⟩, ⟨1, true⟩]]

def triangleTheory : Solver :=
  .ofAtoms [(1, .equality (.var "x") (.var "z")), (2, .equality (.var "y") (.var "z")),
    (3, .equality (.var "x") (.var "y"))]

set_option maxRecDepth 100000 in
/-- An equality is false in the context while the theory still holds it to be true, and so the
search fails. -/
theorem theory_differs_from_context :
    ∃ ctx c, (Context.addParts triangle).run.run (Context.empty {} (⟨0⟩ : SplitMix)) = (.ok (), ctx) ∧
      solve.run.run { context := ctx, theory := triangleTheory } =
        (.error (.theory (.reasserted 1)), c) ∧
      c.context.valuation 1 = some false ∧ c.theory.value? 1 = some true := by
  obtain ⟨ctx, hctx⟩ : ∃ ctx,
      ctx = ((Context.addParts triangle).run.run (Context.empty {} (⟨0⟩ : SplitMix))).2 := ⟨_, rfl⟩
  have hrun : (Context.addParts triangle).run.run (Context.empty {} (⟨0⟩ : SplitMix)) = (.ok (), ctx) :=
    Prod.ext (by decide +kernel : _ = Except.ok ()) hctx.symm
  have hend : fault? (solve.run.run { context := ctx, theory := triangleTheory }).1 =
        some (.theory (.reasserted 1)) ∧
      (solve.run.run { context := ctx, theory := triangleTheory }).2.context.valuation 1 =
        some false ∧
      (solve.run.run { context := ctx, theory := triangleTheory }).2.theory.value? 1 = some true := by
    rw [hctx]
    decide +kernel
  obtain ⟨hfault, hends⟩ := hend
  exact ⟨ctx, _, hrun, Prod.ext (eq_error_of_fault? hfault) rfl, hends⟩

set_option maxRecDepth 100000 in
/-- Reading and solving a formula can fail in the same way. -/
theorem solveModuloEquality_fails :
    (∃ formula, FirstOrder.Formula.parse "((Ax[x=x]|(~x=z|~x=y))&((x=z|(~y=z|x=y))&y=z))" =
      .ok formula) ∧
    solveModuloEquality {} (⟨0⟩ : SplitMix) "((Ax[x=x]|(~x=z|~x=y))&((x=z|(~y=z|x=y))&y=z))" =
      .error (.theory (.reasserted 2)) := by
  have hparses : (FirstOrder.Formula.parse
      "((Ax[x=x]|(~x=z|~x=y))&((x=z|(~y=z|x=y))&y=z))").toOption.any fun _ => true := by
    decide +kernel
  obtain ⟨formula, hparse, _⟩ := exists_ok hparses
  exact ⟨⟨formula, hparse⟩, eq_error_of_fault? (by decide +kernel)⟩

/-- Clauses about equalities of `x` with two of three other variables, and two formulas that are not
interpreted. -/
def misjudged : String :=
  "(~Ax[x=y]&((Ax[x=x]|~x=z)&((u=y|(~u=x|~u=z))&((u=z|y=z)&((u=y|u=z)&((~Ax[x=y]|~Ax[x=x])" ++
    "&((~x=y|~x=z)&(x=z|(u=x|~Ax[x=x])))))))))"

def apart : FirstOrder.Structure Bool where
  var name := name == "x"
  const _ := false
  app _ _ := false
  rel _ _ := False

instance (name : String) (arguments : List Bool) : Decidable (apart.rel name arguments) :=
  inferInstanceAs (Decidable False)

set_option maxRecDepth 100000 in
/-- A formula can be said to be unsatisfiable that is true in a structure. -/
theorem solveModuloEquality_misjudges :
    solveModuloEquality {} (⟨0⟩ : SplitMix) misjudged = .ok .unsatisfiable ∧
      ∃ formula, FirstOrder.Formula.parse misjudged = .ok formula ∧
        formula.Holds (apart.truth fun _ => False) := by
  constructor
  · have hanswer : (solveModuloEquality {} (⟨0⟩ : SplitMix) misjudged).toOption.any
        (· = .unsatisfiable) := by decide +kernel
    obtain ⟨answer, hrun, hunsatisfiable⟩ := exists_ok hanswer
    rw [hrun, of_decide_eq_true hunsatisfiable]
  · have hholds : (FirstOrder.Formula.parse misjudged).toOption.any
        fun formula => formula.Holds (apart.truth fun _ => False) := by decide +kernel
    obtain ⟨formula, hparse, htrue⟩ := exists_ok hholds
    exact ⟨formula, hparse, of_decide_eq_true htrue⟩

end Satisfiability.Coordinator
