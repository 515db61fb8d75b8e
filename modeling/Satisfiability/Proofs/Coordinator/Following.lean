import Satisfiability.Proofs.Context.Notifications
import Satisfiability.Proofs.Context.Resolving
import Satisfiability.Proofs.Coordinator.Mirroring

/-!
# The lowest backjump is enough

A coordinator could let its theory follow every backjump it is told of, one after the other
(`followingEach`). It only lets it follow the lowest. As the levels told fall, what is left is the
same (`Context.Faithful.follows`). So it is for each decision that is propagated at a point of a
steered search and each false clause that is learnt from there (`Context.Steered.jumps_faithful`).
-/

namespace Satisfiability

open Search Step Trail

variable {ρ : Type}

namespace Equality.Solver

variable {solver : Solver} {high low : Nat}

theorem returnTo_returnTo (hhigh : high ≤ solver.level) (hlow : low ≤ high) :
    (solver.closeLevels (solver.level - high)).closeLevels
      ((solver.closeLevels (solver.level - high)).level - low) =
      solver.closeLevels (solver.level - low) := by
  rw [level_closeLevels, ← closeLevels_add]
  congr 1
  omega

end Equality.Solver

namespace Coordinator

open Context (Learning Phase)

variable {c : Coordinator ρ} {jumps : List Nat} {level high low : Nat}

/-- Runs a propagation of the context and lets the theory follow each backjump in turn. -/
def followingEach (operation : Step (Context ρ) Learning) : Step (Coordinator ρ) Bool := do
  let learning ← onContext operation
  learning.jumps.forM followBackjump
  return learning.consistent

def followed (c : Coordinator ρ) (level : Nat) : Coordinator ρ :=
  { c with
    theory := c.theory.closeLevels (c.theory.level - c.target level)
    theoryLevels := c.theoryLevels.take (level + 1)
    synced := (c.syncedByLevel[level]?).getD c.synced
    syncedByLevel := c.syncedByLevel.take (level + 1) }

theorem Levelled.target_le (h : c.Levelled) (level : Nat) : c.target level ≤ c.theory.level := by
  -- the theory stands on the highest of its levels
  unfold target theoryLevel?
  cases hcase : c.theoryLevels[level]? with
  | none => exact Nat.le_refl _
  | some other => exact h.le_level hcase

/-- The lower the level of the context, the lower the one that the theory is taken back to. -/
theorem Levelled.target_mono (h : c.Levelled) (hle : low ≤ high) : c.target low ≤ c.target high := by
  cases hcase : c.theoryLevels[low]? with
  | some k =>
    have hlow : c.target low = k := congrArg (Option.getD · _) hcase
    exact hlow ▸ h.le_target hle hcase
  | none =>
    -- nothing goes with the higher level either
    have hnone := List.getElem?_eq_none (Nat.le_trans (List.getElem?_eq_none_iff.1 hcase) hle)
    have hhigh : c.target high = c.theory.level := congrArg (Option.getD · _) hnone
    exact hhigh ▸ h.target_le low

theorem Levelled.run_followBackjump (h : c.Levelled) (level : Nat) :
    (followBackjump level).run.run c = (.ok (), c.followed level) := by
  -- the theory is not taken up, so there is no fault
  have hbacktrack : c.theory.backtrack ((c.theoryLevel? level).getD c.theory.level) =
      .ok (c.theory.closeLevels (c.theory.level - c.target level)) :=
    if_neg (Nat.not_lt.2 (h.target_le level))
  have hends : Ensures (followBackjump level) c (fun _ c' => c' = c.followed level) never := by
    simp only [followBackjump, ensures_bind, ensures_get, hbacktrack, orTheoryFault, ensures_pure,
      ensures_set]
    rfl
  obtain ⟨_, c', hrun, rfl⟩ := run_of_ensures hends
  exact hrun

theorem Levelled.level_followed (h : c.Levelled) (level : Nat) :
    (c.followed level).theory.level = c.target level := by
  rw [followed, Equality.Solver.level_closeLevels]
  exact Nat.sub_sub_self (h.target_le level)

theorem Levelled.followed (h : c.Levelled) (level : Nat) : (c.followed level).Levelled := by
  refine ⟨?_, h.sorted.sublist (List.take_sublist _ _), fun last hlast => ?_⟩
  · exact (h.coherent.closeLevels (Nat.sub_le _ _)).1
  · exact (h.getLast?_take hlast).trans (h.level_followed level).symm

theorem getD_take {levels : List Nat} {whole : Nat} (hle : low ≤ high) :
    ((levels.take (high + 1))[low]?).getD ((levels[high]?).getD whole) = (levels[low]?).getD whole := by
  rw [List.getElem?_take_of_lt (Nat.lt_succ_of_le hle)]
  rcases Nat.lt_or_ge low levels.length with hlt | hge
  · rw [List.getElem?_eq_getElem hlt]
    rfl
  · -- nothing goes with the higher one either
    rw [List.getElem?_eq_none hge, List.getElem?_eq_none (Nat.le_trans hge hle)]
    rfl

theorem Levelled.target_followed (h : c.Levelled) (hle : low ≤ high) :
    (c.followed high).target low = c.target low := by
  rw [target, h.level_followed]
  exact getD_take hle

theorem Levelled.followed_followed (h : c.Levelled) (hle : low ≤ high) :
    (c.followed high).followed low = c.followed low := by
  have htheory : ((c.followed high).followed low).theory = (c.followed low).theory := by
    rw [Coordinator.followed, h.target_followed hle]
    exact Equality.Solver.returnTo_returnTo (h.target_le high) (h.target_mono hle)
  have htake (levels : List Nat) : (levels.take (high + 1)).take (low + 1) = levels.take (low + 1) := by
    rw [List.take_take, Nat.min_eq_left (Nat.succ_le_succ hle)]
  unfold Coordinator.followed at htheory ⊢
  congr 1
  · exact htake _
  · exact getD_take hle
  · exact htake _

theorem Levelled.run_follow_each (h : c.Levelled) (hfalling : jumps.Pairwise (· > ·)) :
    (jumps.forM followBackjump).run.run c = (.ok (), (jumps.getLast?.map c.followed).getD c) := by
  -- by induction on the levels told, each of which leaves the theory on its levels
  induction jumps generalizing c with
  | nil => rfl
  | cons jump rest ih =>
    obtain ⟨hlower, hrest⟩ := List.pairwise_cons.1 hfalling
    have hrun : ((jump :: rest).forM followBackjump).run.run c =
        (rest.forM followBackjump).run.run (c.followed jump) := by
      change (followBackjump jump >>= fun _ => rest.forM followBackjump).run.run c = _
      rw [run_bind, h.run_followBackjump]
    rw [hrun, ih (h.followed jump) hrest, List.getLast?_cons]
    rcases hlast : rest.getLast? with _ | last
    · rfl
    · have hle := Nat.le_of_lt (hlower last (List.mem_of_getLast? hlast))
      exact congrArg (Prod.mk _) (h.followed_followed hle)

theorem min?_eq_getLast? (hfalling : jumps.Pairwise (· > ·)) : jumps.min? = jumps.getLast? := by
  rcases List.eq_nil_or_concat jumps with rfl | ⟨before, last, rfl⟩
  · rfl
  · rw [List.concat_eq_append] at hfalling ⊢
    rw [List.getLast?_concat]
    refine Context.min?_append_singleton before (fun jump hjump => ?_) (Nat.le_refl last)
    exact Nat.le_of_lt ((List.pairwise_append.1 hfalling).2.2 jump hjump last List.mem_cons_self)

/-- It comes to the same whether each backjump is followed or the lowest one. -/
def FollowsLowest (operation : Step (Context ρ) Learning) (ctx : Context ρ) : Prop :=
  ∀ c : Coordinator ρ, c.Levelled → c.context = ctx →
    (following operation).run.run c = (followingEach operation).run.run c

theorem followsLowest_of_tells {operation : Step (Context ρ) Learning} {ctx : Context ρ}
    {course : (passed told : List (Context ρ)) → Phase × Context ρ → Prop}
    (h : ctx.Tells operation course) : FollowsLowest operation ctx := by
  rintro c hlevelled rfl
  rcases run_of_ends h with ⟨⟨consistent, jumps⟩, ctx', hrun, passed, told, _, hfaithful⟩ |
    ⟨fault, ctx', hrun, _⟩
  · have hfalling : jumps.Pairwise (· > ·) := (List.pairwise_cons.1 hfaithful.falling).2
    have hlevelled' : Levelled { c with context := ctx' } :=
      ⟨hlevelled.coherent, hlevelled.sorted, hlevelled.last⟩
    have hcontext : (onContext operation).run.run c =
        (.ok ⟨consistent, jumps⟩, { c with context := ctx' }) := by
      rw [run_onContext, hrun]
    rw [following, followingEach, run_bind_ok hcontext, run_bind_ok hcontext]
    dsimp only
    rw [min?_eq_getLast? hfalling, run_bind_ok (hlevelled'.run_follow_each hfalling)]
    rcases jumps.getLast? with _ | level
    · rfl
    · dsimp only
      rw [run_bind_ok (hlevelled'.run_followBackjump level)]
      rfl
  · -- after a fault there is nothing to be followed
    have hcontext : (onContext operation).run.run c = (.error fault, { c with context := ctx' }) := by
      rw [run_onContext, hrun]
    rw [following, followingEach, run_bind_error hcontext, run_bind_error hcontext]

end Coordinator

namespace Context

variable [RandomSource ρ] [LawfulRandomSource ρ] {ctx : Context ρ} {clauses : List Clause}
  {phase : Phase}

open Coordinator (FollowsLowest)

/-- The levels told of a decision and of a clause learnt from are faithful, and the theory need not
follow any backjump but the lowest one. -/
theorem Steered.jumps_faithful (h : Steered clauses (phase, ctx)) :
    (Complete (phase, ctx) → ∀ literal, ctx.Open literal → ∃ ctx',
      (do openLevel; record literal none : Step (Context ρ) Unit).run.run ctx = (.ok (), ctx') ∧
        ctx'.Tells (propagateLearning literal []) (Course (.propagate literal, ctx')) ∧
        FollowsLowest (propagateLearning literal []) ctx') ∧
    (phase.Free → ∀ clause : Clause, (∀ literal ∈ clause, ctx.valuation.status literal = .fails) →
      ctx.Tells (resolveConflict clause) (ctx.Resolves clause) ∧
        FollowsLowest (resolveConflict clause) ctx) := by
  obtain ⟨⟨log, hkept⟩, _⟩ := h.spec
  refine ⟨fun hcomplete literal hopen => ?_, fun hfree clause hfalse => ?_⟩
  · have hsettled := hkept.settled hcomplete
    obtain ⟨_, ctx', hrun, _⟩ := run_of_ensures (record_decision_spec hsettled.waiting hopen)
    have htells := (hkept.decided hsettled hopen hrun).tells_propagateLearning
    exact ⟨ctx', hrun, htells, Coordinator.followsLowest_of_tells htells⟩
  · have htells := hkept.tells_resolveConflict hfree hfalse
    exact ⟨htells, Coordinator.followsLowest_of_tells htells⟩

set_option maxRecDepth 100000 in
theorem Steered.jumps_faithful_choice :
    (∃ clauses, Steered clauses (.decide, Choice.opened) ∧ Choice.opened.Open ⟨0, false⟩ ∧
      FollowsLowest (propagateLearning ⟨0, false⟩ []) Choice.decided) ∧
    ∃ clauses, Steered clauses (.decide, Choice.implied) ∧
      (∀ literal ∈ ([⟨0, true⟩, ⟨1, false⟩] : Clause),
        Choice.implied.valuation.status literal = .fails) ∧
      Choice.implied.Tells (resolveConflict [⟨0, true⟩, ⟨1, false⟩])
        (Choice.implied.Resolves [⟨0, true⟩, ⟨1, false⟩]) := by
  constructor
  · obtain ⟨clauses, hsteered⟩ := Choice.steered_opened
    have hopen : Choice.opened.Open ⟨0, false⟩ := ⟨by decide +kernel, by decide +kernel⟩
    obtain ⟨ctx', hrecord, _, hfollows⟩ := hsteered.jumps_faithful.1 trivial ⟨0, false⟩ hopen
    obtain rfl : Choice.decided = ctx' := congrArg Prod.snd hrecord
    exact ⟨clauses, hsteered, hopen, hfollows⟩
  · obtain ⟨clauses, hsteered⟩ := Choice.steered_implied
    have hfalse : ∀ literal ∈ ([⟨0, true⟩, ⟨1, false⟩] : Clause),
        Choice.implied.valuation.status literal = .fails := by decide +kernel
    exact ⟨clauses, hsteered, hfalse, (hsteered.jumps_faithful.2 trivial _ hfalse).1⟩

end Context

end Satisfiability
