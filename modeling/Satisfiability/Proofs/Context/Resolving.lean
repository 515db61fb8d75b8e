import Satisfiability.Proofs.Context.Concordance
import Satisfiability.Proofs.Context.Saturation
import Satisfiability.Proofs.Context.Steering

/-!
# Clauses learnt from

A clause given between the operations of a search is refused if some literal of it is not false, and
then nothing is changed. From any other clause something is learnt: either no model of the clauses
added and given is left, or all is propagated again with the clause among those added, as long as
there are numbers for what is learnt (`Steered.resolves`). The clause may be false on the ground,
force a single literal as it stands, or be in conflict on a level that may be lower than the newest
one.
-/

namespace Satisfiability.Context

open Search Step Trail

variable {ρ : Type} {ctx : Context ρ} {log : List (Source × Clause)} {phase : Phase} {clause : Clause}
  {clauses : List Clause}

structure Absorbed (ctx : Context ρ) (clause : Clause) : Prop where
  added : ∃ canonical, clause.canonical? = some canonical ∧ ctx.clauses.Added canonical
  /-- Each clause has a true literal or two without a value. -/
  saturated : ∀ clause ∈ ctx.clauses.problemClauses ++ ctx.clauses.additionClauses,
    (∃ literal ∈ clause, ctx.valuation.status literal = .holds) ∨
      ∃ first ∈ clause, ∃ second ∈ clause, first ≠ second ∧
        ctx.valuation.status first = .unvalued ∧ ctx.valuation.status second = .unvalued
  indexed : ctx.Indexed
  concordant : ctx.Concordant

theorem Kept.absorbed (h : Kept log (.decide, ctx))
    (hadded : ∃ canonical, clause.canonical? = some canonical ∧ ctx.clauses.Added canonical) :
    ctx.Absorbed clause :=
  ⟨hadded, Settled.saturates h.poised, h.intact.indexes_watches,
    h.intact.agrees.concordant_of_accounted h.justified h.accounted⟩

variable [RandomSource ρ] [LawfulRandomSource ρ]

/-- A clause that is not false is refused. Learning from any other one succeeds as long as there are
numbers for what is learnt, and either refutes the clauses added and given or ends with all in order
and the clause added. -/
theorem Steered.resolves (h : Steered clauses (phase, ctx)) (hfree : phase.Free) (clause : Clause) :
    ((∃ literal ∈ clause, -literal ∈ clause) ∨
        (∃ literal ∈ clause, ctx.valuation.status literal ≠ .fails) →
      (resolveConflict clause).run.run ctx = (.error .invalidState, ctx)) ∧
    ((∀ literal ∈ clause, ctx.valuation.status literal = .fails) →
      Ends (resolveConflict clause) ctx
        (fun learning ctx' =>
          (learning.consistent = false → ∀ model, ¬ Models (clauses ++ [clause]) model) ∧
          (learning.consistent = true → ctx'.Absorbed clause))
        (StorageExhausted .addition)) := by
  refine ⟨run_resolveConflict_refused, fun hfalse => ?_⟩
  obtain ⟨⟨log, hkept⟩, hsound⟩ := h.spec
  refine ends_mono (hkept.resolveConflict_spec hfree hfalse) ?_ fun _ _ => id
  rintro ⟨consistent, jumps⟩ ctx' ⟨⟨passed, told, hresolves, _⟩, hrefuted⟩
  obtain ⟨⟨log', hkept'⟩, hadded, hsound'⟩ := hkept.of_resolves hfree hresolves
  refine ⟨fun hconsistent model hmodel => ?_, fun hconsistent => ?_⟩
  · exact (hsound' _ hsound).refuted (hrefuted hconsistent) model (models_append.1 hmodel)
  · obtain rfl : consistent = true := hconsistent
    exact hkept'.absorbed (hadded rfl)

namespace Choice

def parts : List Part := [.atom "p", .atom "q", .clause [⟨0, true⟩, ⟨1, true⟩]]

def posed : Context SplitMix := ((addParts parts).run.run (empty {} ⟨0⟩)).2

def opened : Context SplitMix :=
  ((propagateGround posed.trail.ground).run.run (posed.withState .solving)).2

def decided : Context SplitMix :=
  ((do openLevel; record ⟨0, false⟩ none : Step (Context SplitMix) Unit).run.run opened).2

def implied : Context SplitMix := ((propagate ⟨0, false⟩).run.run decided).2

set_option maxRecDepth 100000 in
theorem steered_opened : ∃ clauses, Steered clauses (.decide, opened) := by
  have hparts : (addParts parts).run.run (empty {} (⟨0⟩ : SplitMix)) = (.ok (), posed) :=
    Prod.ext (by decide +kernel : _ = Except.ok ()) rfl
  have hground : (propagateGround posed.trail.ground).run.run (posed.withState .solving) =
      (.ok true, opened) := Prod.ext (by decide +kernel : _ = Except.ok true) rfl
  obtain ⟨_, hposed⟩ := (Session.empty {} (⟨0⟩ : SplitMix)).addParts (by decide) hparts
  obtain ⟨_, hopened⟩ := hposed.started (by decide +kernel) hground
  exact hopened.steered

set_option maxRecDepth 100000 in
theorem steered_implied : ∃ clauses, Steered clauses (.decide, implied) := by
  have hrecord : (do openLevel; record ⟨0, false⟩ none : Step (Context SplitMix) Unit).run.run opened =
      (.ok (), decided) := Prod.ext (by decide +kernel : _ = Except.ok ()) rfl
  have hrun : (propagate ⟨0, false⟩).run.run decided = (.ok none, implied) :=
    Prod.ext (by decide +kernel : _ = Except.ok none) rfl
  obtain ⟨clauses, hsteered⟩ := steered_opened
  have hdecided := hsteered.decided trivial ⟨by decide +kernel, by decide +kernel⟩ hrecord
  exact ⟨clauses, hdecided.move (.propagated hrun)⟩

end Choice

set_option maxRecDepth 100000 in
theorem Steered.resolves_choice : ∃ clauses, Steered clauses (.decide, Choice.implied) ∧
    (∀ literal ∈ ([⟨0, true⟩, ⟨1, false⟩] : Clause),
      Choice.implied.valuation.status literal = .fails) ∧
    ∃ learning ctx', (resolveConflict [⟨0, true⟩, ⟨1, false⟩]).run.run Choice.implied =
      (.ok learning, ctx') ∧ learning.consistent = true ∧ ctx'.Absorbed [⟨0, true⟩, ⟨1, false⟩] := by
  obtain ⟨clauses, hsteered⟩ := Choice.steered_implied
  have hfalse : ∀ literal ∈ ([⟨0, true⟩, ⟨1, false⟩] : Clause),
      Choice.implied.valuation.status literal = .fails := by decide +kernel
  have hends := (hsteered.resolves trivial [⟨0, true⟩, ⟨1, false⟩]).2 hfalse
  have hresult : ((resolveConflict [⟨0, true⟩, ⟨1, false⟩]).run.run Choice.implied).1.toOption.any
      Learning.consistent := by decide +kernel
  obtain ⟨learning, hok, hconsistent⟩ := exists_ok hresult
  have hrun : (resolveConflict [⟨0, true⟩, ⟨1, false⟩]).run.run Choice.implied = (.ok learning, _) :=
    Prod.ext hok rfl
  obtain ⟨_, habsorbed⟩ := ends_ok hends hrun
  exact ⟨clauses, hsteered, hfalse, learning, _, hrun, hconsistent, habsorbed hconsistent⟩

end Satisfiability.Context
