import Satisfiability.Proofs.Linear.Anticycling

/-!
# The answers of the method

The budget of each phase is greater than the number of pivots that a run can have, so the method
ends with an answer, and its stages lead to it (`run_reaches`). Where the method stands at the end,
the answer is right (`Program.WellFormed.exists_right`), and the number of pivots is bounded for
every run.
-/

namespace Satisfiability.Linear

namespace Simplex

open Scalar Step Finset

variable {program : Program ℚ} {start s s' : Simplex ℚ} {etaLimit : ℕ} {bland : Bool}

section answer

variable (hprogram : program.WellFormed) (hstart : start = ofProgram (.exact etaLimit bland) program)

theorem exists_run {p : Stage ℚ × Simplex ℚ} (h : Reaches (.start, start) p) :
    ∃ n f, Run start n f ∧ f n = p := by
  induction h with
  | refl => exact ⟨0, fun _ => (.start, start), ⟨rfl, fun _ hk => absurd hk (Nat.not_lt_zero _)⟩, rfl⟩
  | @tail p q _ htransition ih =>
    obtain ⟨n, f, hrun, rfl⟩ := ih
    refine ⟨n + 1, fun k => if k ≤ n then f k else q, ⟨?_, fun k hk => ?_⟩, if_neg (Nat.not_succ_le_self n)⟩
    · exact (if_pos (Nat.zero_le n)).trans hrun.begins
    · rw [if_pos (Nat.le_of_lt_succ hk)]
      rcases (Nat.le_of_lt_succ hk).lt_or_eq with hlt | rfl
      · rw [if_pos (Nat.succ_le_of_lt hlt)]
        exact hrun.steps k hlt
      · rw [if_neg (Nat.not_succ_le_self k)]
        exact htransition

include hprogram hstart

theorem iterations_lt_of_reaches {p : Stage ℚ × Simplex ℚ} (h : Reaches (.start, start) p) :
    p.2.iterations < 2 ^ (start.columns.length + 2) := by
  obtain ⟨n, f, hrun, rfl⟩ := exists_run h
  have hlength := hrun.length_le hprogram hstart
  have hcount : ∀ k ≤ n, (f k).2.iterations ≤ k := by
    intro k hk
    induction k with
    | zero =>
      rw [hrun.begins, hstart]
      exact Nat.le_refl 0
    | succ k ih =>
      exact (hrun.step hprogram hstart hk).2.2.trans (Nat.succ_le_succ (ih (Nat.le_of_succ_le hk)))
  have hbland : start.blandAfter ≤ 2 ^ (program.columns + program.constraints.length) := by
    rw [hstart]
    exact boundedBinomial_le _ _
  have hwidth : start.columns.length = program.columns + program.constraints.length + 1 := by
    rw [hstart]
    exact (shaped_ofProgram hprogram).width
  have hpositive := Nat.one_le_two_pow (n := program.columns + program.constraints.length)
  have hcount' := hcount n (Nat.le_refl n)
  rw [hwidth] at hlength ⊢
  simp only [Nat.pow_succ] at hlength ⊢
  omega

theorem optimise_reaches (withAuxiliary : Bool) {stage : Stage ℚ}
    (hstage : ∀ {s s'}, Improves withAuxiliary s s' → Improvement (stage, s) (stage, s'))
    (hsound : ∀ s, Stands program start (stage, s) → ∃ costs, Sound start costs s)
    (hanswers : ∀ s, Stands program start (stage, s) → Ensures (Simplex.improve withAuxiliary) s
      (fun answer s' => answer ≠ none → s' = s) never)
    (h : Reaches (.start, start) (stage, s)) :
    Ensures (optimise withAuxiliary) s (fun bounded s' => Reaches (.start, start) (stage, s') ∧
      (Simplex.improve withAuxiliary).run.run s' = (.ok (some bounded), s')) never := by
  have hstands := stands_of_reaches hprogram hstart h
  obtain ⟨_, hsound⟩ := hsound s hstands
  have hwithin := optimiseWithin_ensures withAuxiliary (fun s => Stands program start (stage, s))
    (fun s hs => ?_) (2 ^ (start.columns.length + 2)) hstands
  · simp only [optimise, ensures_bind, ensures_get, hsound.retains.columns]
    refine ensures_mono hwithin ?_ ?_
    · rintro bounded s' ⟨himproved, -, hanswer⟩
      exact ⟨h.trans (reaches_of_improved hstage himproved), hanswer⟩
    · -- a budget used up would mean more pivots than there can be
      rintro _ ⟨s', himproved, hcount⟩
      have hlt := iterations_lt_of_reaches hprogram hstart (h.trans (reaches_of_improved hstage himproved))
      rw [hcount] at hlt
      exact absurd hlt (Nat.not_lt.2 (Nat.le_add_left _ _))
  · refine ensures_of_never (ensures_and_run (hanswers s hs)) ?_
    rintro answer s' ⟨hanswer, hrun⟩
    refine ⟨fun hnone => ?_, hanswer⟩
    subst hnone
    have htransition : Transition (stage, s) (stage, s') := .improved (hstage hrun)
    refine ⟨stands_of_transition hprogram hstart hs htransition, ?_⟩
    rcases (step_of_transition hprogram hstart hs htransition).1 with ⟨-, -, hcount⟩ | hlt
    · exact hcount
    · exact absurd hlt (lt_irrefl _)

theorem optimise_first (h : Reaches (.start, start) (.first, s)) :
    Ensures (optimise true) s (fun bounded s' => bounded = true ∧ Reaches (.start, start) (.first, s') ∧
      (Simplex.improve true).run.run s' = (.ok (some true), s')) never := by
  refine ensures_of_never (optimise_reaches hprogram hstart true (fun himproves => .first himproves)
    (fun s hs => ⟨_, hs.1⟩) (fun s hs => ?_) h) ?_
  · refine ensures_of_never (hs.1.improve_first hs.2) ?_
    rintro answer s' (⟨-, hs', -⟩ | ⟨hnone, -⟩)
    · exact fun _ => hs'
    · exact fun h => absurd hnone h
  · rintro bounded s' ⟨hreaches, hanswer⟩
    have hstands := stands_of_reaches hprogram hstart hreaches
    obtain ⟨-, rfl, -⟩ := hstands.1.answer_first hstands.2 hanswer
    exact ⟨rfl, hreaches, hanswer⟩

theorem optimise_second (h : Reaches (.start, start) (.second, s)) :
    Ensures (optimise false) s (fun bounded s' => Reaches (.start, start) (.second, s') ∧
      (Simplex.improve false).run.run s' = (.ok (some bounded), s')) never := by
  refine optimise_reaches hprogram hstart false (fun himproves => .second himproves)
    (fun s hs => ⟨_, hs.1⟩) (fun s hs => ?_) h
  refine ensures_of_never (hs.1.improve_second hs.2.1 hs.2.2) ?_
  rintro answer s' (⟨-, hs', -⟩ | ⟨-, hs', -⟩ | ⟨hnone, -⟩)
  · exact fun _ => hs'
  · exact fun _ => hs'
  · exact fun h => absurd hnone h

theorem findFeasible_reaches (hinfeasible : start.infeasibleStart = true) :
    Ensures findFeasible start (fun feasible s =>
      feasible = false ∧ Reaches (.start, start) (.finished .infeasible, s) ∨
        feasible = true ∧ Reaches (.start, start) (.second, s.pursuing s.objective)) never := by
  have hsound := sound_start hprogram hstart
  have hauxiliary : start.auxiliary ∈ start.nonBasic := by
    have hindex := auxiliary_eq hprogram hstart
    subst hstart
    rw [hindex]
    exact List.mem_append_right _ List.mem_cons_self
  obtain ⟨position, hposition⟩ := Option.isSome_iff_exists.1 (List.isSome_idxOf?.2 hauxiliary)
  obtain ⟨direction, hdirection, -⟩ := hsound.exists_direction hsound.shaped.auxiliary_lt
  simp only [findFeasible, ensures_bind, ensures_get, hposition,
    getElem?_columns hsound.shaped.auxiliary_lt, entry_some, ensures_pure, hdirection]
  have henters := auxiliary_enters hprogram hstart hinfeasible hposition hdirection
  refine ensures_of_never (ensures_and_run henters) ?_
  rintro ⟨⟩ s₁ ⟨-, hrun⟩
  have hfirst : Reaches (.start, start) (.first, s₁.pursuing s₁.auxiliaryCosts) :=
    .single (.admitted hinfeasible hposition hdirection hrun)
  rw [ensures_modify]
  refine ensures_of_never (optimise_first hprogram hstart hfirst) ?_
  rintro _ s₂ ⟨rfl, hreaches, hanswer⟩
  obtain ⟨hsound₂, hnonneg₂⟩ := stands_of_reaches hprogram hstart hreaches
  rw [if_neg (by decide), ensures_bind, ensures_get]
  cases hrow : s₂.basic.idxOf? s₂.auxiliary with
  | none => exact Or.inr ⟨rfl, hreaches.tail (.left hanswer hrow)⟩
  | some row =>
    have hlt : row < s₂.basis.size := by
      rw [← hsound₂.shaped.basic]
      exact (List.idxOf?_eq_some_iff.1 hrow).1
    obtain ⟨_, value, _, -, hvalue, -⟩ := hsound₂.shaped.exists_row hsound₂.shaped.values hlt
    simp only [ensures_bind, hvalue, entry_some, ensures_pure]
    split
    · rename_i hpositive
      exact Or.inl ⟨rfl, hreaches.tail (.infeasible hanswer hrow hvalue hpositive)⟩
    · rename_i hzero
      rw [Bool.not_eq_true] at hzero
      -- the auxiliary column is basic at zero, and leaves by a pivot that changes no value
      obtain rfl := hsound₂.eq_zero_of_expelled hnonneg₂ hvalue hzero
      rw [ensures_bind]
      refine ensures_of_never (ensures_and_run (hsound₂.expel hprogram hstart hnonneg₂ hrow hvalue)) ?_
      rintro ⟨⟩ s₃ ⟨-, hexpel⟩
      exact Or.inr ⟨rfl, hreaches.tail (.expelled hanswer hrow hvalue hzero hexpel)⟩

/-- The method ends with an answer that its stages lead to. -/
theorem run_reaches : Ensures run start (fun outcome s =>
    Reaches (.start, start) (.finished outcome, s)) never := by
  -- the second phase, wherever the first one has led
  have hsecond : ∀ s, Reaches (.start, start) (.second, s.pursuing s.objective) →
      Ensures (do
        modify fun s => { s with costs := s.objective }
        if ← optimise false then
          let s ← get
          return .optimal s.assignment (dot s.assignment s.objective)
        else return .unbounded : Step (Simplex ℚ) (Outcome ℚ)) s
        (fun outcome s => Reaches (.start, start) (.finished outcome, s)) never := by
    intro s hreaches
    simp only [ensures_bind, ensures_modify]
    refine ensures_of_never (optimise_second hprogram hstart hreaches) ?_
    rintro bounded s' ⟨hreaches', hanswer⟩
    cases bounded with
    | true => exact hreaches'.tail (.optimal hanswer)
    | false => exact hreaches'.tail (.unbounded hanswer)
  rw [run, ensures_bind, ensures_get]
  change Ensures (if start.infeasibleStart = true then _ else _) start _ _
  cases hinfeasible : start.infeasibleStart with
  | false =>
    rw [if_neg Bool.false_ne_true, pure_bind]
    exact hsecond start (.single (.feasible hinfeasible))
  | true =>
    rw [if_pos rfl, ensures_bind]
    refine ensures_of_never (findFeasible_reaches hprogram hstart hinfeasible) ?_
    rintro _ s (⟨rfl, hreaches⟩ | ⟨rfl, hreaches⟩)
    · exact hreaches
    · exact hsecond s hreaches

/-! ## The rule of the smallest column -/

omit hprogram hstart in
/-- Between two states a pivot is made for which, of the columns that may enter and raise the value,
the smallest one enters, and, of those that bound the step, the smallest one leaves. -/
def FollowsBland (start : Simplex ℚ) (p q : Stage ℚ × Simplex ℚ) : Prop :=
  ∃ (v w : Vertex (pursuit start p.2.costs)) (entering leaving : ℕ) (direction : ℕ → ℚ),
    v.basis = p.2.basic.toFinset ∧ v.point = p.2.point ∧ w.basis = q.2.basic.toFinset ∧
      w.point = q.2.point ∧
      Bland (fun j => p.1 = .first ∨ j ≠ start.auxiliary) v w entering leaving direction

omit hprogram hstart in
theorem followsBland_of_improvement {p q : Stage ℚ × Simplex ℚ} (hp : Stands program start p)
    (h : Improvement p q) (huses : p.2.usesBland = true) : FollowsBland start p q := by
  cases h with
  | @first s s' himproves =>
    obtain ⟨hsound, hnonneg⟩ := hp
    obtain ⟨-, -, h', entering, leaving, direction, -, hbland⟩ := hsound.improves_first hnonneg himproves
    have hallowed : Allowed start true =
        fun j => (Stage.first : Stage ℚ) = .first ∨ j ≠ start.auxiliary :=
      funext fun _ => propext ⟨fun _ => Or.inl rfl, fun _ => Or.inl rfl⟩
    change ∃ (v w : Vertex (pursuit start s.costs)) (_ _ : ℕ) (_ : ℕ → ℚ), _
    rw [hsound.costs]
    exact ⟨hsound.vertex, h'.vertex, entering, leaving, direction, rfl, rfl, rfl, rfl,
      hallowed ▸ hbland huses⟩
  | @second s s' himproves =>
    obtain ⟨hsound, hnonneg, hauxiliary⟩ := hp
    obtain ⟨-, -, -, h', entering, leaving, direction, -, hbland⟩ :=
      hsound.improves_second hnonneg hauxiliary himproves
    have hallowed : Allowed start false =
        fun j => (Stage.second : Stage ℚ) = .first ∨ j ≠ start.auxiliary :=
      funext fun _ => propext (or_congr_left ⟨nofun, nofun⟩)
    change ∃ (v w : Vertex (pursuit start s.costs)) (_ _ : ℕ) (_ : ℕ → ℚ), _
    rw [hsound.costs]
    exact ⟨hsound.vertex, h'.vertex, entering, leaving, direction, rfl, rfl, rfl, rfl,
      hallowed ▸ hbland huses⟩

end answer

end Simplex

namespace Program

variable {program : Program ℚ}

/-- A well-formed program is solved, and the answer is right. -/
theorem WellFormed.exists_right (h : program.WellFormed) (etaLimit : ℕ) (bland : Bool) :
    ∃ outcome, program.solve (.exact etaLimit bland) = .ok outcome ∧ outcome.Right program := by
  obtain ⟨outcome, s, hrun, hreaches⟩ := Step.run_of_ensures (Simplex.run_reaches h rfl)
  exact ⟨outcome, congrArg Prod.fst hrun, Simplex.stands_of_reaches h rfl hreaches⟩

/-- Every program that can be built is solved over the exact numbers, for any number of eta matrices
and either rule, and the answer is right. -/
theorem solve_right (h : program.Built) (etaLimit : ℕ) (bland : Bool) :
    ∃ outcome, program.solve (.exact etaLimit bland) = .ok outcome ∧ outcome.Right program :=
  h.wellFormed.exists_right etaLimit bland

/-- The method ends, and all its runs are short: the greatest rate decides about no more pivots than
there are bases, and one more. From then on the smallest column enters and the smallest one leaves,
and no basis from which that is done is met again. -/
theorem pivots_bounded (h : program.Built) (etaLimit : ℕ) (bland : Bool) :
    let start := Simplex.ofProgram (.exact etaLimit bland) program
    let bases := boundedBinomial (program.columns + program.constraints.length) program.constraints.length
    (∃ outcome s, Simplex.run.run.run start = (.ok outcome, s) ∧
      Simplex.Reaches (.start, start) (.finished outcome, s)) ∧
    ∀ n f, start.Run n f → n ≤ 2 ^ start.columns.length + bases + 4 ∧
      ((Finset.range n).filter fun k => (f k).2.usesBland = false ∧
        (f k).2.iterations < (f (k + 1)).2.iterations).card ≤ bases + 1 ∧
      (∀ k l, k ≤ l → l ≤ n → (f k).2.usesBland = true → (f l).2.usesBland = true) ∧
      ∀ k < n, Simplex.Improvement (f k) (f (k + 1)) → (f k).2.usesBland = true →
        Simplex.FollowsBland start (f k) (f (k + 1)) ∧
        ∀ l, k < l → l ≤ n → ¬ (f k).2.basic.Perm (f l).2.basic := by
  intro start bases
  have hprogram := h.wellFormed
  refine ⟨Step.run_of_ensures (Simplex.run_reaches hprogram rfl), fun n f hrun => ⟨?_, ?_, ?_, ?_⟩⟩
  · exact hrun.length_le hprogram rfl
  · exact hrun.card_greatest_le hprogram rfl
  · exact fun k l hkl hl => hrun.usesBland_mono hprogram rfl hkl hl
  · intro k hk himprovement huses
    refine ⟨Simplex.followsBland_of_improvement (hrun.stands hprogram rfl hk.le) himprovement huses,
      fun l hkl hl => ?_⟩
    exact hrun.not_perm_of_improvement hprogram rfl hkl hl himprovement huses

/-- A degenerate program on which the choice of the greatest rate comes back to a basis. -/
def degenerate : Program ℚ :=
  let objective := (setObjective [(0, 10), (1, -57), (2, -9), (3, -24)]).run.run (.ofColumns 4)
  let first := (addConstraint [(0, 1 / 2), (1, -11 / 2), (2, -5 / 2), (3, 9)] 0).run.run objective.2
  let second := (addConstraint [(0, 1 / 2), (1, -3 / 2), (2, -1 / 2), (3, 1)] 0).run.run first.2
  ((addConstraint [(0, 1)] 1).run.run second.2).2

theorem built_degenerate : degenerate.Built :=
  ((((Built.ofColumns 4).setObjective _).addConstraint _ _).addConstraint _ _).addConstraint _ _

theorem solve_right_degenerate : degenerate.Built ∧
    ∃ outcome, degenerate.solve (.exact 0 false) = .ok outcome ∧ outcome.Right degenerate :=
  ⟨built_degenerate, solve_right built_degenerate 0 false⟩

theorem pivots_bounded_degenerate : degenerate.Built ∧
    ∀ n f, (Simplex.ofProgram (.exact 0 false) degenerate).Run n f → n ≤ 2 ^ 8 + 35 + 4 :=
  ⟨built_degenerate, fun n f hrun => ((pivots_bounded built_degenerate 0 false).2 n f hrun).1⟩

end Program

end Satisfiability.Linear
