import Satisfiability.Proofs.Context.Session

/-!
# What propagation leaves

Propagation looks only at the clauses that watch a literal made false, and a conflict ends it with
literals still waiting. Still, whenever a decision is to be made nothing waits and no clause is
late, so no clause is false and none forces a literal (`Session.saturated`).
-/

namespace Satisfiability.Context

open Search Step

variable {ρ : Type} {ctx : Context ρ} {log : List (Source × Clause)} {watched : WatchedClause}

/-- Where nothing is pending and the clause is not late, a watch is true, or both are open. -/
theorem Agrees.saturated_of_guarded (h : ctx.Agrees) (hdistinct : watched.first ≠ watched.second)
    (hguarded : watched.Guarded ctx.trail.marked (fun _ => False) False) :
    (∃ literal ∈ watched.literals, ctx.valuation.status literal = .holds) ∨
      ∃ first ∈ watched.literals, ∃ second ∈ watched.literals, first ≠ second ∧
        ctx.valuation.status first = .unvalued ∧ ctx.valuation.status second = .unvalued := by
  have hfirst : watched.first ∈ watched.literals := List.mem_cons_self
  have hsecond : watched.second ∈ watched.literals := List.mem_cons_of_mem _ List.mem_cons_self
  -- a false watch has the other one true
  have hother : ∀ watch other, Guard False ctx.trail.marked (fun _ => False) watch other watched.others →
      ctx.valuation.status watch = .fails → ctx.valuation.status other = .holds := by
    intro watch other hguard hfails
    obtain ⟨level, hmark⟩ := h.fails_iff.1 hfails
    obtain ⟨i, _, htrue⟩ := (hguard level hmark id).resolve_right And.left
    exact h.holds_iff.2 ⟨i, htrue⟩
  rcases hstatus : ctx.valuation.status watched.first with _ | _ | _
  · rcases hstatus' : ctx.valuation.status watched.second with _ | _ | _
    · exact Or.inr ⟨_, hfirst, _, hsecond, hdistinct, hstatus, hstatus'⟩
    · exact Or.inl ⟨_, hsecond, hstatus'⟩
    · exact Or.inl ⟨_, hfirst, hother _ _ hguarded.2 hstatus'⟩
  · exact Or.inl ⟨_, hfirst, hstatus⟩
  · exact Or.inl ⟨_, hsecond, hother _ _ hguarded.1 hstatus⟩

theorem Settled.saturates (h : ctx.Settled) :
    ∀ clause ∈ ctx.clauses.problemClauses ++ ctx.clauses.additionClauses,
      (∃ literal ∈ clause, ctx.valuation.status literal = .holds) ∨
        ∃ first ∈ clause, ∃ second ∈ clause, first ≠ second ∧
          ctx.valuation.status first = .unvalued ∧ ctx.valuation.status second = .unvalued := by
  have hagrees := h.waiting.intact.agrees
  intro clause hmem
  obtain ⟨key, hhas⟩ := ClauseStore.mem_clauses_iff.1 hmem
  cases key with
  | unit source literal =>
    -- a clause of one literal is true without a decision
    obtain ⟨rfl, hunit⟩ := hhas
    have hmark := h.noted source literal hunit
    exact Or.inl ⟨literal, List.mem_cons_self, hagrees.holds_iff.2 ⟨0, hmark⟩⟩
  | stored source index =>
    obtain ⟨watched, hget, rfl⟩ := hhas
    have hdistinct := WatchedClause.first_ne_second (hagrees.stored _ watched hget).1
    refine hagrees.saturated_of_guarded hdistinct ?_
    exact (h.waiting.guarded _ watched hget).mono fun _ => List.not_mem_nil

variable [RandomSource ρ] [LawfulRandomSource ρ]

/-- Whenever a decision is to be made each clause has a true literal or two without a value. -/
theorem Session.saturated (h : Session log (.decide, ctx)) :
    ∀ clause ∈ ctx.clauses.problemClauses ++ ctx.clauses.additionClauses,
      (∃ literal ∈ clause, ctx.valuation.status literal = .holds) ∨
        ∃ first ∈ clause, ∃ second ∈ clause, first ≠ second ∧
          ctx.valuation.status first = .unvalued ∧ ctx.valuation.status second = .unvalued :=
  Settled.saturates h.kept.poised

def chain : List Part :=
  [.atom "p", .atom "q", .atom "r", .atom "s", .clause [⟨0, true⟩], .clause [⟨0, false⟩, ⟨1, true⟩],
    .clause [⟨1, false⟩, ⟨2, true⟩, ⟨3, true⟩]]

def chained : Context SplitMix := ((addParts chain).run.run (empty {} ⟨0⟩)).2

def settled : Context SplitMix :=
  ((propagateGround chained.trail.ground).run.run (chained.withState .solving)).2

set_option maxRecDepth 100000 in
theorem Session.saturated_chain : (∃ log, Session log (.decide, settled)) ∧
    ∀ clause ∈ settled.clauses.problemClauses ++ settled.clauses.additionClauses,
      (∃ literal ∈ clause, settled.valuation.status literal = .holds) ∨
        ∃ first ∈ clause, ∃ second ∈ clause, first ≠ second ∧
          settled.valuation.status first = .unvalued ∧
            settled.valuation.status second = .unvalued := by
  have hparts : (Context.addParts chain).run.run (.empty {} (⟨0⟩ : SplitMix)) = (.ok (), chained) :=
    Prod.ext (by decide +kernel : _ = Except.ok ()) rfl
  have hground : (propagateGround chained.trail.ground).run.run (chained.withState .solving) =
      (.ok true, settled) := Prod.ext (by decide +kernel : _ = Except.ok true) rfl
  obtain ⟨_, hbuilt⟩ := (Session.empty {} (⟨0⟩ : SplitMix)).addParts (by decide) hparts
  obtain ⟨log, hsession⟩ := hbuilt.started (by decide +kernel) hground
  exact ⟨⟨log, hsession⟩, hsession.saturated⟩

end Satisfiability.Context
