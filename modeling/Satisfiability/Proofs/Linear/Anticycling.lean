import Mathlib.Data.Finset.Powerset
import Mathlib.Data.Finset.Card
import Mathlib.Data.List.Dedup
import Satisfiability.Proofs.Linear.Binomial
import Satisfiability.Proofs.Linear.Phases

/-!
# The number of pivots

Every step of the method either goes on to a later stage or is a pivot towards a greater value
(`step_of_transition`). Such pivots are counted by the number of pivots made as long as the greatest
rate decides, and by the bases they start from once the smallest column enters, for none of these is
met again (`not_perm_of_improvement`). So a run has no more steps than there are sets of columns,
and some more for the first rule and the changes of stage (`Run.length_le`).
-/

namespace Satisfiability.Linear

namespace Simplex

open Scalar Step Finset

variable {program : Program ℚ} {start s s' : Simplex ℚ} {etaLimit : ℕ} {bland : Bool}

/-! ## Steps -/

def Stage.number {α : Type} : Stage α → ℕ
  | .start => 0
  | .first => 1
  | .second => 2
  | .finished _ => 3

/-- A step is a pivot towards a greater value or goes on to a later stage. It makes at most one
pivot. -/
theorem step_of_transition (hprogram : program.WellFormed)
    (hstart : start = ofProgram (.exact etaLimit bland) program) {p q : Stage ℚ × Simplex ℚ}
    (hp : Stands program start p) (h : Transition p q) :
    (Improvement p q ∧ p.1 = q.1 ∧ q.2.iterations = p.2.iterations + 1 ∨ p.1.number < q.1.number) ∧
      p.2.iterations ≤ q.2.iterations ∧ q.2.iterations ≤ p.2.iterations + 1 := by
  cases h with
  | feasible => exact ⟨Or.inr Nat.zero_lt_two, Nat.le_refl _, Nat.le_succ _⟩
  | @admitted s s' position direction hvalues hposition hdirection hrun =>
    obtain rfl : s = start := hp
    have henters := auxiliary_enters hprogram hstart hvalues hposition hdirection
    obtain ⟨-, -, hcount⟩ := ensures_ok henters hrun
    exact ⟨Or.inr Nat.zero_lt_one, hcount ▸ Nat.le_succ _, hcount.le⟩
  | improved himprovement =>
    -- a pivot stays in its stage and is counted; all other steps go on to a later stage
    have hcount : p.1 = q.1 ∧ q.2.iterations = p.2.iterations + 1 := by
      cases himprovement with
      | first hrun => exact ⟨rfl, (hp.1.improves_first hp.2 hrun).2.1⟩
      | second hrun => exact ⟨rfl, (hp.1.improves_second hp.2.1 hp.2.2 hrun).2.2.1⟩
    exact ⟨Or.inl ⟨himprovement, hcount⟩, hcount.2 ▸ Nat.le_succ _, hcount.2.le⟩
  | infeasible hrun =>
    obtain ⟨rfl, -⟩ := hp.1.answer_first hp.2 hrun
    exact ⟨Or.inr (by decide : 1 < 3), Nat.le_refl _, Nat.le_succ _⟩
  | left hrun =>
    obtain ⟨rfl, -⟩ := hp.1.answer_first hp.2 hrun
    exact ⟨Or.inr Nat.one_lt_two, Nat.le_refl _, Nat.le_succ _⟩
  | @expelled s s' s'' row value hrun hrow hvalue hzero hexpel =>
    obtain ⟨hsound, hnonneg⟩ := hp
    obtain ⟨rfl, -⟩ := hsound.answer_first hnonneg hrun
    obtain rfl := hsound.eq_zero_of_expelled hnonneg hvalue hzero
    obtain ⟨-, -, -, hcount⟩ := ensures_ok (hsound.expel hprogram hstart hnonneg hrow hvalue) hexpel
    exact ⟨Or.inr Nat.one_lt_two, hcount ▸ Nat.le_succ _, hcount.le⟩
  | optimal hrun =>
    obtain ⟨rfl, -⟩ := hp.1.answer_second hp.2.1 hp.2.2 hrun
    exact ⟨Or.inr (by decide : 2 < 3), Nat.le_refl _, Nat.le_succ _⟩
  | unbounded hrun =>
    obtain ⟨rfl, -⟩ := hp.1.answer_second hp.2.1 hp.2.2 hrun
    exact ⟨Or.inr (by decide : 2 < 3), Nat.le_refl _, Nat.le_succ _⟩

theorem eq_of_finished {p : Stage ℚ × Simplex ℚ} {outcome : Outcome ℚ} (hp : Stands program start p)
    (h : Transition p (.finished outcome, s)) : s = p.2 := by
  cases h with
  | improved himprovement => cases himprovement
  | infeasible hrun => exact (hp.1.answer_first hp.2 hrun).1
  | optimal hrun => exact (hp.1.answer_second hp.2.1 hp.2.2 hrun).1
  | unbounded hrun => exact (hp.1.answer_second hp.2.1 hp.2.2 hrun).1

/-! ## Bases -/

/-- With the smallest column entering and leaving, no sound state has the basis of an earlier one.
-/
theorem not_perm_of_bland {costs : List ℚ} (allowed : ℕ → Prop) {n : ℕ} (states : ℕ → Simplex ℚ)
    (hsound : ∀ k ≤ n, Sound start costs (states k))
    (hbland : ∀ (k : ℕ) (hk : k < n), ∃ entering leaving direction,
      Bland allowed (hsound k hk.le).vertex (hsound (k + 1) hk).vertex entering leaving direction)
    (hn : 0 < n) : ¬ (states 0).basic.Perm (states n).basic := by
  classical
  -- the vertices, as long as there are any
  set vertices : ℕ → Vertex (pursuit start costs) := fun k =>
    if hk : k ≤ n then (hsound k hk).vertex else (hsound 0 (Nat.zero_le n)).vertex with hvertices
  have hvertex : ∀ (k : ℕ) (hk : k ≤ n), vertices k = (hsound k hk).vertex := fun k hk => dif_pos hk
  have hsteps : ∀ k, ∃ entering leaving direction, k < n →
      Bland allowed (vertices k) (vertices (k + 1)) entering leaving direction := by
    intro k
    by_cases hk : k < n
    · obtain ⟨entering, leaving, direction, hstep⟩ := hbland k hk
      refine ⟨entering, leaving, direction, fun _ => ?_⟩
      rwa [hvertex k hk.le, hvertex (k + 1) hk]
    · exact ⟨0, 0, 0, fun hlt => absurd hlt hk⟩
  choose entering leaving direction hsteps using hsteps
  intro hperm
  refine basis_ne_of_bland (v := vertices) (fun k hk => hsteps k hk) hn ?_
  rw [hvertex n (Nat.le_refl n), hvertex 0 (Nat.zero_le n)]
  exact (List.toFinset_eq_of_perm _ _ hperm).symm

/-! ## Runs -/

structure Run {α : Type} [Scalar α] (start : Simplex α) (n : ℕ) (f : ℕ → Stage α × Simplex α) : Prop where
  begins : f 0 = (.start, start)
  steps : ∀ k < n, Transition (f k) (f (k + 1))

section run

variable (hprogram : program.WellFormed) (hstart : start = ofProgram (.exact etaLimit bland) program)
  {n : ℕ} {f : ℕ → Stage ℚ × Simplex ℚ} (hrun : Run start n f)

include hprogram hstart hrun

theorem Run.stands {k : ℕ} (hk : k ≤ n) : Stands program start (f k) := by
  induction k with
  | zero =>
    rw [hrun.begins]
    rfl
  | succ k ih =>
    exact stands_of_transition hprogram hstart (ih (Nat.le_of_succ_le hk)) (hrun.steps k hk)

theorem Run.retains {k : ℕ} (hk : k ≤ n) : Retains start (f k).2 := by
  induction k with
  | zero =>
    rw [hrun.begins]
    exact .refl _
  | succ k ih =>
    have hstands := hrun.stands hprogram hstart hk
    have hstep := hrun.steps k hk
    rcases hf : f (k + 1) with ⟨_ | _ | _ | outcome, s⟩ <;> rw [hf] at hstands hstep
    · rw [show s = start from hstands]
      exact .refl _
    · exact hstands.1.retains
    · exact hstands.1.retains
    · rw [eq_of_finished (hrun.stands hprogram hstart (Nat.le_of_succ_le hk)) hstep]
      exact ih (Nat.le_of_succ_le hk)

theorem Run.step {k : ℕ} (hk : k < n) :
    (Improvement (f k) (f (k + 1)) ∧ (f k).1 = (f (k + 1)).1 ∧
        (f (k + 1)).2.iterations = (f k).2.iterations + 1 ∨ (f k).1.number < (f (k + 1)).1.number) ∧
      (f k).2.iterations ≤ (f (k + 1)).2.iterations ∧
      (f (k + 1)).2.iterations ≤ (f k).2.iterations + 1 :=
  step_of_transition hprogram hstart (hrun.stands hprogram hstart hk.le) (hrun.steps k hk)

theorem Run.iterations_mono {k l : ℕ} (hkl : k ≤ l) (hl : l ≤ n) :
    (f k).2.iterations ≤ (f l).2.iterations := by
  induction l, hkl using Nat.le_induction with
  | base => exact Nat.le_refl _
  | succ l _ ih => exact (ih (Nat.le_of_succ_le hl)).trans (hrun.step hprogram hstart hl).2.1

theorem Run.number_mono {k l : ℕ} (hkl : k ≤ l) (hl : l ≤ n) : (f k).1.number ≤ (f l).1.number := by
  induction l, hkl using Nat.le_induction with
  | base => exact Nat.le_refl _
  | succ l _ ih =>
    refine (ih (Nat.le_of_succ_le hl)).trans ?_
    rcases (hrun.step hprogram hstart hl).1 with ⟨-, heq, -⟩ | hlt
    · rw [heq]
    · exact hlt.le

theorem Run.usesBland_mono {k l : ℕ} (hkl : k ≤ l) (hl : l ≤ n) (hbland : (f k).2.usesBland = true) :
    (f l).2.usesBland = true := by
  have hk := hrun.retains hprogram hstart (hkl.trans hl)
  have hl' := hrun.retains hprogram hstart hl
  have hmono := hrun.iterations_mono hprogram hstart hkl hl
  rw [usesBland, Bool.or_eq_true, decide_eq_true_eq, hk.options, hk.blandAfter] at hbland
  rw [usesBland, Bool.or_eq_true, decide_eq_true_eq, hl'.options, hl'.blandAfter]
  exact hbland.imp_right fun hlt => hlt.trans_le hmono

theorem Run.stage_eq {k l : ℕ} (hl : l ≤ n) (heq : (f k).1 = (f l).1) {i : ℕ} (hki : k ≤ i) (hil : i ≤ l) :
    (f i).1 = (f k).1 := by
  induction i, hki using Nat.le_induction with
  | base => rfl
  | succ i hki ih =>
    have hprevious := ih (Nat.le_of_succ_le hil)
    have hle := hrun.number_mono hprogram hstart hil hl
    rcases (hrun.step hprogram hstart (hil.trans hl)).1 with ⟨-, hsame, -⟩ | hlt
    · exact hsame.symm.trans hprevious
    · rw [hprevious, heq] at hlt
      exact absurd hle hlt.not_ge

theorem Run.not_perm_of_stage (stage : Stage ℚ) {costs : List ℚ} (allowed : ℕ → Prop)
    (hsound : ∀ s, Stands program start (stage, s) → Sound start costs s)
    (hbland : ∀ s s' (h : Stands program start (stage, s)) (h' : Stands program start (stage, s')),
      Improvement (stage, s) (stage, s') → s.usesBland = true → ∃ entering leaving direction,
        Bland allowed (hsound s h).vertex (hsound s' h').vertex entering leaving direction)
    {k l : ℕ} (hkl : k < l) (hl : l ≤ n) (hk : (f k).1 = stage) (hstage : (f l).1 = stage)
    (huses : (f k).2.usesBland = true) : ¬ (f k).2.basic.Perm (f l).2.basic := by
  have hf : ∀ i ≤ l - k, f (k + i) = (stage, (f (k + i)).2) := fun i hi => by
    refine Prod.ext ?_ rfl
    rw [hrun.stage_eq hprogram hstart hl (hk.trans hstage.symm) (Nat.le_add_right k i) (by omega), hk]
  have hstands : ∀ i ≤ l - k, Stands program start (stage, (f (k + i)).2) := fun i hi =>
    hf i hi ▸ hrun.stands hprogram hstart (by omega)
  have hperm := not_perm_of_bland allowed (n := l - k) (fun i => (f (k + i)).2)
    (fun i hi => hsound _ (hstands i hi)) (fun i hi => ?_) (by omega)
  · rwa [Nat.add_zero, Nat.add_sub_cancel' hkl.le] at hperm
  · have huses' := hrun.usesBland_mono hprogram hstart (Nat.le_add_right k i) (by omega) huses
    refine hbland _ _ (hstands i hi.le) (hstands (i + 1) hi) ?_ huses'
    have hsame : (f (k + i)).1 = (f (k + i + 1)).1 := by
      rw [hf i hi.le]
      exact (congrArg Prod.fst (hf (i + 1) hi)).symm
    rcases (hrun.step hprogram hstart (by omega : k + i < n)).1 with ⟨himprovement, -⟩ | hlt
    · rwa [hf i hi.le, Nat.add_assoc, hf (i + 1) hi] at himprovement
    · rw [hsame] at hlt
      exact absurd hlt (lt_irrefl _)

theorem Run.not_perm_of_first {k l : ℕ} (hkl : k < l) (hl : l ≤ n) (hk : (f k).1 = .first)
    (hstage : (f l).1 = .first) (huses : (f k).2.usesBland = true) :
    ¬ (f k).2.basic.Perm (f l).2.basic := by
  refine hrun.not_perm_of_stage hprogram hstart .first (Allowed start true) (fun s h => h.1)
    (fun s s' h h' himprovement hbland => ?_) hkl hl hk hstage huses
  obtain ⟨-, -, himproves⟩ := (improvement_iff.1 himprovement).resolve_right fun h => nomatch h.1
  obtain ⟨-, -, _, entering, leaving, direction, -, hstep⟩ := h.1.improves_first h.2 himproves
  exact ⟨entering, leaving, direction, hstep hbland⟩

theorem Run.not_perm_of_second {k l : ℕ} (hkl : k < l) (hl : l ≤ n) (hk : (f k).1 = .second)
    (hstage : (f l).1 = .second) (huses : (f k).2.usesBland = true) :
    ¬ (f k).2.basic.Perm (f l).2.basic := by
  refine hrun.not_perm_of_stage hprogram hstart .second (Allowed start false) (fun s h => h.1)
    (fun s s' h h' himprovement hbland => ?_) hkl hl hk hstage huses
  obtain ⟨-, -, himproves⟩ := (improvement_iff.1 himprovement).resolve_left fun h => nomatch h.1
  obtain ⟨-, -, -, _, entering, leaving, direction, -, hstep⟩ :=
    h.1.improves_second h.2.1 h.2.2 himproves
  exact ⟨entering, leaving, direction, hstep hbland⟩

/-- The bases of a phase with the auxiliary column are not those of a phase without it. -/
theorem Run.not_perm_of_later_stage {k l : ℕ} (hk : k ≤ n) (hl : l ≤ n) (hfirst : (f k).1 = .first)
    (himproves : Improves true (f k).2 (f (k + 1)).2) (hsecond : (f l).1 = .second) :
    ¬ (f k).2.basic.Perm (f l).2.basic := by
  have hstands := hrun.stands hprogram hstart hk
  have hstands' := hrun.stands hprogram hstart hl
  rcases hf : f k with ⟨stage, s⟩
  rcases hf' : f l with ⟨stage', s'⟩
  rw [hf] at hstands hfirst himproves
  rw [hf'] at hstands' hsecond
  obtain rfl : stage = .first := hfirst
  obtain rfl : stage' = .second := hsecond
  obtain ⟨hsound, hnonneg⟩ := hstands
  obtain ⟨-, -, _, entering, leaving, direction, hpivots, -⟩ := hsound.improves_first hnonneg himproves
  have hmem := auxiliary_mem_of_improves hsound.auxiliary_lt hpivots.toLeads hpivots.improves
  exact fun hperm => hstands'.2.2 (hperm.subset (List.mem_toFinset.1 hmem))

/-- A basis from which the smallest column has entered is not met again before there is an answer.
-/
theorem Run.not_perm_of_unfinished {k l : ℕ} (hkl : k < l) (hl : l ≤ n)
    (himprovement : Improvement (f k) (f (k + 1))) (huses : (f k).2.usesBland = true)
    (hunfinished : ∀ outcome, (f l).1 ≠ .finished outcome) : ¬ (f k).2.basic.Perm (f l).2.basic := by
  have hmono := hrun.number_mono hprogram hstart hkl.le hl
  rcases improvement_iff.1 himprovement with ⟨hk, -, himproves⟩ | ⟨hk, -, -⟩ <;> rw [hk] at hmono
  · rcases hstage : (f l).1 with _ | _ | _ | outcome
    · rw [hstage] at hmono
      exact absurd hmono (by decide)
    · exact hrun.not_perm_of_first hprogram hstart hkl hl hk hstage huses
    · exact hrun.not_perm_of_later_stage hprogram hstart (hkl.le.trans hl) hl hk himproves hstage
    · exact absurd hstage (hunfinished outcome)
  · rcases hstage : (f l).1 with _ | _ | _ | outcome
    · rw [hstage] at hmono
      exact absurd hmono (by decide)
    · rw [hstage] at hmono
      exact absurd hmono (by decide)
    · exact hrun.not_perm_of_second hprogram hstart hkl hl hk hstage huses
    · exact absurd hstage (hunfinished outcome)

/-- A basis from which the smallest column has entered is not met again. -/
theorem Run.not_perm_of_improvement {k l : ℕ} (hkl : k < l) (hl : l ≤ n)
    (himprovement : Improvement (f k) (f (k + 1))) (huses : (f k).2.usesBland = true) :
    ¬ (f k).2.basic.Perm (f l).2.basic := by
  have hunfinished := fun l hkl hl =>
    hrun.not_perm_of_unfinished hprogram hstart (k := k) (l := l) hkl hl himprovement huses
  by_cases hfinished : ∃ outcome, (f l).1 = .finished outcome
  · -- the answer is given in the state before
    obtain ⟨outcome, hstage⟩ := hfinished
    obtain ⟨m, rfl⟩ := Nat.exists_eq_succ_of_ne_zero (Nat.ne_zero_of_lt hkl)
    have htransition := hrun.steps m hl
    have hlast : f (m + 1) = (.finished outcome, (f (m + 1)).2) := Prod.ext hstage rfl
    rw [hlast] at htransition
    rw [eq_of_finished (hrun.stands hprogram hstart (Nat.le_of_succ_le hl)) htransition]
    rcases Nat.lt_succ_iff_lt_or_eq.1 hkl with hkm | rfl
    · refine hunfinished m hkm (Nat.le_of_succ_le hl) fun outcome' hfinished => ?_
      rw [show f m = (.finished outcome', (f m).2) from Prod.ext hfinished rfl] at htransition
      cases htransition with
      | improved himprovement => cases himprovement
    · rcases improvement_iff.1 himprovement with ⟨-, hq, -⟩ | ⟨-, hq, -⟩
      · exact nomatch hq.symm.trans hstage
      · exact nomatch hq.symm.trans hstage
  · exact hunfinished l hkl hl fun outcome hstage => hfinished ⟨outcome, hstage⟩

/-! ## How many steps there are -/

omit hprogram hstart hrun in
theorem card_le_of_ne {β : Type} {numbers : Finset ℕ} (values : Finset β) (g : ℕ → β)
    (hmem : ∀ k ∈ numbers, g k ∈ values) (hne : ∀ k ∈ numbers, ∀ l ∈ numbers, k < l → g k ≠ g l) :
    numbers.card ≤ values.card := by
  refine card_le_card_of_injOn g hmem fun k hk l hl heq => ?_
  rcases lt_trichotomy k l with hlt | rfl | hlt
  · exact absurd heq (hne k hk l hl hlt)
  · rfl
  · exact absurd heq.symm (hne l hl k hk hlt)

theorem Run.card_stages_le :
    ((range n).filter fun k => (f k).1.number < (f (k + 1)).1.number).card ≤ 3 := by
  have hbound : ∀ stage : Stage ℚ, stage.number ≤ 3 := by
    rintro (_ | _ | _ | _)
    · exact Nat.zero_le 3
    · exact Nat.le_add_left 1 2
    · exact Nat.le_succ 2
    · exact Nat.le_refl 3
  refine (card_le_of_ne (range 3) (fun k => (f k).1.number) (fun k hk => ?_) fun k hk l hl hlt => ?_).trans
    (card_range 3).le
  · exact mem_range.2 ((mem_filter.1 hk).2.trans_le (hbound _))
  · obtain ⟨-, hnumber⟩ := mem_filter.1 hk
    have hmono := hrun.number_mono hprogram hstart hlt (mem_range.1 (mem_filter.1 hl).1).le
    exact (hnumber.trans_le hmono).ne

theorem Run.card_greatest_le :
    ((range n).filter fun k => (f k).2.usesBland = false ∧
      (f k).2.iterations < (f (k + 1)).2.iterations).card ≤ start.blandAfter + 1 := by
  refine (card_le_of_ne (range (start.blandAfter + 1)) (fun k => (f k).2.iterations) (fun k hk => ?_)
    fun k hk l hl hlt => ?_).trans (card_range _).le
  · obtain ⟨hk, hgreatest, -⟩ := mem_filter.1 hk
    have hretains := hrun.retains hprogram hstart (mem_range.1 hk).le
    rw [usesBland, Bool.or_eq_false_iff, hretains.blandAfter, decide_eq_false_iff_not] at hgreatest
    exact mem_range.2 (Nat.lt_succ_of_le (not_lt.1 hgreatest.2))
  · obtain ⟨-, -, hcount⟩ := mem_filter.1 hk
    have hmono := hrun.iterations_mono hprogram hstart hlt (mem_range.1 (mem_filter.1 hl).1).le
    exact (hcount.trans_le hmono).ne

theorem Run.sound_of_improvement {k : ℕ} (hk : k < n) (himprovement : Improvement (f k) (f (k + 1))) :
    ∃ costs, Sound start costs (f k).2 := by
  have hstands := hrun.stands hprogram hstart hk.le
  rcases hf : f k with ⟨stage, s⟩
  rw [hf] at hstands himprovement
  rcases improvement_iff.1 himprovement with ⟨hstage, -⟩ | ⟨hstage, -⟩
  · obtain rfl : stage = .first := hstage
    exact ⟨_, hstands.1⟩
  · obtain rfl : stage = .second := hstage
    exact ⟨_, hstands.1⟩

open Classical in
theorem Run.card_smallest_le :
    ((range n).filter fun k => (f k).2.usesBland = true ∧ Improvement (f k) (f (k + 1))).card ≤
      2 ^ start.columns.length := by
  refine (card_le_of_ne (range start.columns.length).powerset (fun k => (f k).2.basic.toFinset)
    (fun k hk => ?_) fun k hk l hl hlt heq => ?_).trans (by rw [card_powerset, card_range])
  · obtain ⟨hk, -, himprovement⟩ := mem_filter.1 hk
    obtain ⟨costs, hsound⟩ := hrun.sound_of_improvement hprogram hstart (mem_range.1 hk) himprovement
    refine mem_powerset.2 fun j hj => mem_range.2 ?_
    rw [← hsound.retains.columns]
    exact hsound.shaped.lt_of_basic (List.mem_toFinset.1 hj)
  · obtain ⟨hk, hbland, himprovement⟩ := mem_filter.1 hk
    obtain ⟨hl, -, himprovement'⟩ := mem_filter.1 hl
    obtain ⟨_, hsound⟩ := hrun.sound_of_improvement hprogram hstart (mem_range.1 hk) himprovement
    obtain ⟨_, hsound'⟩ := hrun.sound_of_improvement hprogram hstart (mem_range.1 hl) himprovement'
    exact hrun.not_perm_of_improvement hprogram hstart hlt (mem_range.1 hl).le himprovement hbland
      (List.perm_of_nodup_nodup_toFinset_eq hsound.shaped.nodup_basic hsound'.shaped.nodup_basic heq)

/-- A run is no longer than there are sets of columns, and some more. -/
theorem Run.length_le : n ≤ 2 ^ start.columns.length + start.blandAfter + 4 := by
  classical
  have hstages := hrun.card_stages_le hprogram hstart
  have hgreatest := hrun.card_greatest_le hprogram hstart
  have hsmallest := hrun.card_smallest_le hprogram hstart
  set stages := (range n).filter fun k => (f k).1.number < (f (k + 1)).1.number
  set greatest := (range n).filter fun k => (f k).2.usesBland = false ∧
    (f k).2.iterations < (f (k + 1)).2.iterations
  set smallest := (range n).filter fun k => (f k).2.usesBland = true ∧ Improvement (f k) (f (k + 1))
  have hcover : range n ⊆ stages ∪ greatest ∪ smallest := by
    intro k hk
    rw [mem_union, mem_union, mem_filter, mem_filter, mem_filter]
    rcases (hrun.step hprogram hstart (mem_range.1 hk)).1 with ⟨himprovement, -, hcount⟩ | hlt
    · cases huses : (f k).2.usesBland with
      | false => exact Or.inl (Or.inr ⟨hk, rfl, by omega⟩)
      | true => exact Or.inr ⟨hk, rfl, himprovement⟩
    · exact Or.inl (Or.inl ⟨hk, hlt⟩)
  have hcard := card_le_card hcover
  rw [card_range] at hcard
  have hunion := card_union_le (stages ∪ greatest) smallest
  have hunion' := card_union_le stages greatest
  omega

end run

end Simplex

end Satisfiability.Linear
