import Satisfiability.Proofs.Coordinator.Rounds

/-!
# Ends of searches modulo equality

A search modulo equality ends unless some literal of the trail is not justified by its reason
(`budget_suffices_if_justified`). The theory can give such a reason where it still holds a literal
that has no value any more. Then a resolution may go round for ever, whatever the budget is
(`conflicting_outOfFuel`).
-/

namespace Satisfiability.Coordinator

open Search Step
open Equality (Solver)
open Satisfiability.FirstOrder (Formula)

variable {ρ : Type} [RandomSource ρ] {c : Coordinator ρ} {ctx : Context ρ} {literal : Literal}

/-- A search over a problem that fits and a theory of some of its atoms ends, with an answer or a
fault of its own, or else it is left with a literal that is not justified. -/
theorem budget_suffices_if_justified [LawfulRandomSource ρ] (config : Config) (random : ρ)
    (parts : List Context.Part) (hparts : Context.Part.Ordered 0 parts)
    (atoms : List (Atom × Formula)) (hatoms : ∀ pair ∈ atoms, pair.1 < Context.Part.atomCount parts) :
    Ends (Context.addParts parts) (Context.empty config random)
      (fun _ ctx => ∀ c, solve.run.run { context := ctx, theory := Solver.ofAtoms atoms } =
        (.error .outOfFuel, c) → ¬ c.context.Justified)
      fun fault ctx => Context.Depleted fault ctx ∧ ¬ Context.Part.Fits parts := by
  refine ends_mono (Context.built_parts config random hparts) ?_ fun _ _ => id
  rintro _ ctx ⟨hbuilt, _, hcount⟩ c hsolve
  rw [← hcount] at hatoms
  exact ends_error (solve_ends hbuilt hatoms) hsolve rfl

/-! ## A search without an end -/

def afterRounds : Nat → Coordinator ρ → Coordinator ρ
  | 0, c => c
  | n + 1, c => afterRounds n (round.run.run c).2

theorem ends_rounds {post : Report → Coordinator ρ → Prop} {fail : Fault → Coordinator ρ → Prop}
    (n : Nat) (hrounds : ∀ k < n, (round.run.run (afterRounds k c)).1.toOption = some none)
    (budget : Nat) (hrest : Ends (rounds budget) (afterRounds n c) post fail) :
    Ends (rounds (budget + n)) c post fail := by
  induction n generalizing c with
  | zero => exact hrest
  | succ n ih =>
    have hfirst := hrounds 0 (Nat.succ_pos n)
    refine ends_bind.2 (ends_of_run none hfirst ?_)
    exact ih (fun k hk => hrounds (k + 1) (Nat.succ_lt_succ hk)) hrest

/-- Three equalities between three variables, with clauses about them and three more atoms, next to
which there are three that no clause is about. -/
def circular : List Context.Part :=
  [.atom "p", .atom "b", .atom "r", .atom "c", .atom "a", .atom "q", .atom "s", .atom "t", .atom "u",
    .clause [⟨4, false⟩, ⟨1, false⟩, ⟨3, false⟩], .clause [⟨5, false⟩, ⟨4, true⟩],
    .clause [⟨2, false⟩, ⟨3, false⟩, ⟨5, false⟩], .clause [⟨4, true⟩, ⟨5, true⟩, ⟨0, true⟩],
    .clause [⟨5, false⟩, ⟨3, true⟩], .clause [⟨3, true⟩, ⟨4, false⟩],
    .clause [⟨2, true⟩, ⟨1, true⟩]]

def circularAtoms : List (Atom × Formula) :=
  [(1, .equality (.var "y") (.var "z")), (3, .equality (.var "x") (.var "z")),
    (4, .equality (.var "x") (.var "y"))]

/-- A configuration in which the atoms are decided on in their order. -/
def inOrder : Config := { activityBump := ⟨0.0, greatestFinite, 0.0⟩ }

def begun : Coordinator SplitMix where
  context := ((Context.addParts circular).run.run (Context.empty inOrder ⟨0⟩)).2
  theory := Solver.ofAtoms circularAtoms

def beforeLast : Coordinator SplitMix := afterRounds 6 ((onContext Context.start).run.run begun).2

def entered : Coordinator SplitMix := { beforeLast with context := beforeLast.context.counted }

def informed : Coordinator SplitMix := (sync.run.run entered).2

/-- The search when the literal that the theory found to follow was made true. -/
def implied : Coordinator SplitMix := ((update ⟨4, true⟩).run.run informed).2

def conflicting : Context SplitMix :=
  (Context.countConflict.run.run ((Context.propagate ⟨4, true⟩).run.run implied.context).2).2

def circle : List Clause :=
  [[⟨3, true⟩, ⟨4, false⟩], [⟨4, false⟩, ⟨1, false⟩], [⟨1, false⟩, ⟨3, false⟩],
    [⟨1, false⟩, ⟨4, false⟩]]

set_option maxRecDepth 100000 in
theorem conflicting_resolvent? : ∀ clause ∈ circle, ∃ clause' ∈ circle,
    conflicting.resolvent? 1 clause = some clause' := by decide +kernel

set_option maxRecDepth 100000 in
theorem conflicting_clause : conflicting.trail.level = 1 ∧
    conflicting.clauses.literals? (.stored .problem 5) = some [⟨3, true⟩, ⟨4, false⟩] ∧
      conflicting.trail.decision?.isNone = false ∧
        conflicting.merge none [] [⟨3, true⟩, ⟨4, false⟩] = [⟨3, true⟩, ⟨4, false⟩] := by
  decide +kernel

theorem conflicting_outOfFuel (budget : Nat) :
    conflicting.resolveWithin 1 budget [⟨3, true⟩, ⟨4, false⟩] = .error .outOfFuel :=
  Context.resolveWithin_outOfFuel conflicting_resolvent? budget List.mem_cons_self

theorem analyse_conflicting : conflicting.analyse (.stored .problem 5) = .error .outOfFuel := by
  obtain ⟨hlevel, hliterals, hdecision, hmerge⟩ := conflicting_clause
  have hround := conflicting_outOfFuel (Context.roundBudget conflicting.atoms.count)
  simp only [Context.analyse, hlevel, hliterals, hdecision, hmerge, hround, one_ne_zero, if_false,
    Bool.false_eq_true]

set_option maxRecDepth 100000 in
theorem entered_runs : entered.context.timeIsUp = false ∧
    (sync.run.run entered).1.toOption = some () ∧
      informed.theory.propagate = .entailed [⟨4, true⟩] ∧
        ((update ⟨4, true⟩).run.run informed).1.toOption = some .set ∧
          ((Context.propagate ⟨4, true⟩).run.run implied.context).1.toOption =
            some (some (.stored .problem 5)) := by
  decide +kernel

omit [RandomSource ρ] in
theorem ends_learn_of_error {key : ClauseKey} {fault : Fault}
    (h : (Context.countConflict.run.run ctx).2.analyse key = .error fault) :
    Ends (Context.learn key) ctx (fun _ _ => False)
      fun fault' ctx' => fault' = fault ∧ ctx' = (Context.countConflict.run.run ctx).2 := by
  unfold Context.learn
  rw [ends_bind]
  refine ends_of_run () rfl ?_
  rw [ends_bind, ends_get, h]
  exact ⟨rfl, rfl⟩

omit [RandomSource ρ] in
theorem ends_propagate_of_error {key : ClauseKey} {fault : Fault}
    (hrun : ((Context.propagate literal).run.run c.context).1.toOption = some (some key))
    (h : (Context.countConflict.run.run
      ((Context.propagate literal).run.run c.context).2).2.analyse key = .error fault) :
    Ends (propagate literal) c (fun _ _ => False) fun fault' c' => fault' = fault ∧
      c'.context = (Context.countConflict.run.run
        ((Context.propagate literal).run.run c.context).2).2 := by
  unfold propagate following
  rw [ends_bind, ends_onContext]
  unfold Context.propagateLearning
  rw [ends_bind, ends_get]
  obtain ⟨budget, hbudget⟩ : ∃ budget, Context.roundBudget c.context.atoms.count = budget + 1 :=
    Nat.exists_eq_succ_of_ne_zero (Nat.ne_of_gt (Nat.pow_pos (Nat.succ_pos _)))
  rw [hbudget, Context.propagateLearningWithin, ends_bind]
  refine ends_of_run _ hrun ?_
  dsimp only
  rw [ends_bind]
  exact ends_mono (ends_learn_of_error h) (fun _ _ => False.elim) fun _ _ => id

theorem round_beforeLast : Ends round beforeLast (fun _ _ => False)
    fun fault c => fault = .outOfFuel ∧ c.context = conflicting := by
  obtain ⟨htime, hsync, hentailed, hset, hconflict⟩ := entered_runs
  unfold round countRound
  rw [ends_bind, ends_onContext, ends_modify, ends_bind, ends_get]
  change Ends (if entered.context.timeIsUp = true then _ else _) entered _ _
  rw [if_neg (by simp [htime]), ends_bind]
  refine ends_of_run () hsync ?_
  rw [ends_bind]
  change Ends consult informed _ _
  -- an equality follows, and its explanation becomes its reason
  unfold consult
  rw [ends_bind, ends_get, hentailed]
  dsimp only
  unfold updateAll
  rw [ends_bind]
  refine ends_of_run _ hset ?_
  dsimp only
  rw [ends_bind]
  exact ends_mono (ends_propagate_of_error hconflict analyse_conflicting) (fun _ _ => False.elim)
    fun _ _ => id

set_option maxRecDepth 100000 in
theorem begun_runs : ¬ (begun.context.state = .satisfiable ∨ begun.context.state = .unsatisfiable) ∧
    ((onContext Context.start).run.run begun).1.toOption = some true ∧
      (∀ k < 6, (round.run.run
        (afterRounds k ((onContext Context.start).run.run begun).2)).1.toOption = some none) ∧
        begun.context.atoms.count = 9 := by
  decide +kernel

theorem solve_begun : ∃ c, solve.run.run begun = (.error .outOfFuel, c) ∧ c.context = conflicting := by
  obtain ⟨hstate, hstart, hrounds, hcount⟩ := begun_runs
  obtain ⟨budget, hbudget⟩ : ∃ budget, Context.roundBudget 9 = budget + 1 + 6 := by
    have hlt := Context.lt_roundBudget 9
    generalize Context.roundBudget 9 = rounds at hlt
    exact ⟨rounds - 7, by omega⟩
  have hends : Ends solve begun (fun _ _ => False)
      fun fault c => fault = .outOfFuel ∧ c.context = conflicting := by
    unfold solve
    rw [ends_bind, ends_get]
    dsimp only
    rw [if_neg hstate, ends_bind]
    refine ends_of_run _ hstart ?_
    rw [if_pos rfl, hcount, hbudget]
    refine ends_rounds 6 hrounds (budget + 1) ?_
    change Ends (rounds (budget + 1)) beforeLast _ _
    unfold rounds
    rw [ends_bind]
    exact ends_mono round_beforeLast (fun _ _ => False.elim) fun _ _ => id
  rcases hrun : solve.run.run begun with ⟨result, c⟩
  cases result with
  | ok report => exact (ends_ok hends hrun).elim
  | error fault =>
    obtain ⟨rfl, hcontext⟩ := ends_error hends hrun
    exact ⟨c, rfl, hcontext⟩

theorem begun_context : (Context.addParts circular).run.run (Context.empty inOrder ⟨0⟩) =
    (.ok (), begun.context) := by
  have hordered : Context.Part.Ordered 0 circular := by decide
  have hbuilt := Context.built_parts inOrder (⟨0⟩ : SplitMix) hordered
  obtain ⟨ctx, hrun, _⟩ := Context.exists_of_fits hbuilt (by decide)
  exact Prod.ext (by rw [hrun]) rfl

/-- The literal that the theory let follow is not justified by its explanation. -/
theorem budget_suffices_if_justified_circular :
    Context.Part.Ordered 0 circular ∧
      (∀ pair ∈ circularAtoms, pair.1 < Context.Part.atomCount circular) ∧
      ∃ c, solve.run.run begun = (.error .outOfFuel, c) ∧ ¬ c.context.Justified := by
  have hordered : Context.Part.Ordered 0 circular := by decide
  have hbounded : ∀ pair ∈ circularAtoms, pair.1 < Context.Part.atomCount circular := by decide
  have hends :=
    budget_suffices_if_justified inOrder (⟨0⟩ : SplitMix) circular hordered circularAtoms hbounded
  obtain ⟨c, hsolve, _⟩ := solve_begun
  exact ⟨hordered, hbounded, c, hsolve, ends_ok hends begun_context c hsolve⟩

/-- A search can come to a clause whose resolution no budget suffices for. -/
theorem resolution_without_end :
    (Context.addParts circular).run.run (Context.empty inOrder ⟨0⟩) = (.ok (), begun.context) ∧
      ∃ c key clause, solve.run.run begun = (.error .outOfFuel, c) ∧
        c.context.clauses.literals? key = some clause ∧
          ∀ budget, c.context.resolveWithin c.context.trail.level budget
            (c.context.merge none [] clause) = .error .outOfFuel := by
  obtain ⟨c, hsolve, hcontext⟩ := solve_begun
  obtain ⟨hlevel, hliterals, _, hmerge⟩ := conflicting_clause
  refine ⟨begun_context, c, _, _, hsolve, hcontext ▸ hliterals, fun budget => ?_⟩
  rw [hcontext, hlevel, hmerge]
  exact conflicting_outOfFuel budget

end Satisfiability.Coordinator
