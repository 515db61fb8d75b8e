import Satisfiability.Proofs.Context.Decision
import Satisfiability.Proofs.Context.Table

/-!
# Decisions are never missed

Between calls the activities of atoms may be bumped and decayed by any amounts, also by ones that
have no place in the order of numbers. Nothing of this takes an atom without a value off the heap
(`Driven.coherent`): on the order of the heap depends which of these atoms a decision is about, and
not whether there is one (`Driven.decides`).
-/

namespace Satisfiability.Context

open Search Step

variable {ρ : Type} [RandomSource ρ] {ctx : Context ρ}

/-- A context after calls of operations on an empty one, whatever came of each, with any changes of
activities in between. -/
inductive Driven : Context ρ → Prop
  | empty (config : Config) (random : ρ) : Driven { config, random }
  | call {ctx : Context ρ} {α : Type} {operation : Step (Context ρ) α} (h : Driven ctx)
    (hoperation : Operation operation) : Driven (operation.run.run ctx).2
  | bump {ctx : Context ρ} {atom : Atom} {atoms : AtomTable Float} (h : Driven ctx) (amount : Float)
    (hrun : ctx.atoms.bump? amount atom = some atoms) : Driven { ctx with atoms }
  | decay {ctx : Context ρ} (h : Driven ctx) (factor : Float) :
    Driven { ctx with atoms := ctx.atoms.decay factor }

theorem Driven.coherent (h : Driven ctx) : ctx.atoms.Coherent := by
  -- coherence asks nothing of the order of the heap, so any amounts will do
  induction h with
  | empty config random => exact AtomTable.coherent_empty
  | call _ hoperation ih => exact ends_iff.1 (hoperation.keepsTable _ ih)
  | bump _ _ hrun ih => exact ih.of_bump? hrun
  | decay _ factor ih => exact (ih.decay factor).1

/-- Each atom without a value is on the heap. A decision is about one of them, and there is none
only if every atom has a value. -/
theorem Driven.decides [LawfulRandomSource ρ] (h : Driven ctx) :
    (∀ atom < ctx.atoms.count, ctx.atoms.placement? atom = none →
      atom ∈ ctx.atoms.activities.heap) ∧
    ∃ chosen ctx', decision.run.run ctx = (.ok chosen, ctx') ∧ (chosen = none ↔ ctx.Total) ∧
      ∀ literal, chosen = some literal → ctx.Open literal := by
  have hcoherent := h.coherent
  have hheap : ∀ atom < ctx.atoms.count, ctx.atoms.placement? atom = none →
      atom ∈ ctx.atoms.activities.heap := by
    intro atom hatom hnone
    exact hcoherent.inverse.isActive_iff_mem.1 (hcoherent.active atom hatom hnone)
  obtain ⟨chosen, ctx', hrun, -, hchosen⟩ := run_of_ensures (decision_spec hcoherent)
  refine ⟨hheap, chosen, ctx', hrun, ?_, ?_⟩
  · cases chosen with
    | none => exact iff_of_true rfl hchosen
    | some literal =>
      have hpartial : ¬ ctx.Total := fun htotal => htotal _ hchosen.1 hchosen.2
      exact iff_of_false (Option.some_ne_none literal) hpartial
  · intro literal hsome
    subst hsome
    exact hchosen

def single : Context SplitMix := ((freshAtom "p").run.run { config := {}, random := ⟨0⟩ }).2

/-- The activity of the atom becomes one that is not a number, and there is another atom then. -/
theorem decides_unordered : ∃ atoms : AtomTable Float,
    single.atoms.bump? (0.0 / 0.0) 0 = some atoms ∧
    let ctx := ((freshAtom "q").run.run { single with atoms }).2
    Driven ctx ∧
    (∀ atom < ctx.atoms.count, ctx.atoms.placement? atom = none →
      atom ∈ ctx.atoms.activities.heap) ∧
    ∃ chosen ctx', decision.run.run ctx = (.ok chosen, ctx') ∧ (chosen = none ↔ ctx.Total) ∧
      ∀ literal, chosen = some literal → ctx.Open literal := by
  have hempty : Driven { config := {}, random := (⟨0⟩ : SplitMix) } :=
    Driven.empty _ _
  have hsingle : Driven single := hempty.call (.freshAtom "p")
  have hcount : 0 < single.atoms.count := by decide +kernel
  obtain ⟨atoms, hbump, -⟩ := hsingle.coherent.bump?_spec (0.0 / 0.0) hcount
  have hdriven := (hsingle.bump (0.0 / 0.0) hbump).call (.freshAtom "q")
  exact ⟨atoms, hbump, hdriven, Driven.decides hdriven⟩

end Satisfiability.Context
