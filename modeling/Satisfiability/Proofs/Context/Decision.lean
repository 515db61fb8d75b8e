import Satisfiability.Proofs.Context.Learning
import Satisfiability.Proofs.Search.Random

/-!
# Decisions

A decision changes nothing but activities, counters and randomness; it is about an atom without a
value, and there is none only if every atom has one (`decision_spec`). Put on a level of its own it
needs no reason (`record_decision_spec`).
-/

namespace Satisfiability.Context

open Search Step Trail

variable {ρ : Type} {ctx ctx' : Context ρ} {literal : Literal} {late : Prop}

def Open (ctx : Context ρ) (literal : Literal) : Prop :=
  literal.atom < ctx.atoms.count ∧ ctx.atoms.placement? literal.atom = none

def Total (ctx : Context ρ) : Prop :=
  ∀ atom < ctx.atoms.count, ctx.atoms.placement? atom ≠ none

theorem Similar.open_iff (h : ctx.Similar ctx') : ctx'.Open literal ↔ ctx.Open literal := by
  unfold Open
  rw [h.placements.count, h.placements.placement]

theorem Similar.total_iff (h : ctx.Similar ctx') : ctx'.Total ↔ ctx.Total := by
  unfold Total
  simp only [h.placements.count, h.placements.placement]

theorem similar_withRandom (hcoherent : ctx.atoms.Coherent) (random : ρ) :
    ctx.Similar { ctx with random } :=
  ⟨rfl, rfl, rfl, rfl, rfl, rfl, hcoherent, .refl _⟩

section choice

variable [RandomSource ρ]

theorem drawsRandomly_spec (hcoherent : ctx.atoms.Coherent) :
    Ensures drawsRandomly ctx (fun _ ctx' => ctx.Similar ctx') never := by
  unfold drawsRandomly
  simp only [ensures_bind, ensures_get]
  split
  · exact similar_withRandom hcoherent _
  · exact similar_withRandom hcoherent ctx.random

variable [LawfulRandomSource ρ]

theorem chooseAtom_spec (hcoherent : ctx.atoms.Coherent) :
    Ensures chooseAtom ctx (fun atom ctx' => ctx.Similar ctx' ∧
      match atom with
      | none => ctx.Total
      | some atom => atom < ctx.atoms.count ∧ ctx.atoms.placement? atom = none) never := by
  unfold chooseAtom
  rw [ensures_bind]
  refine ensures_of_never (drawsRandomly_spec hcoherent) ?_
  intro randomly ctx₁ hsimilar
  cases randomly with
  -- a draw of an index into the list of open atoms
  | true =>
    simp only [if_true, ensures_modifyGet]
    refine ⟨hsimilar.trans (similar_withRandom hsimilar.coherent _), ?_⟩
    have hchosen := chosenFrom_choose ctx₁.atoms.unvalued ctx₁.random
    split
    · rename_i heq
      rw [heq] at hchosen
      rw [← hsimilar.total_iff]
      intro atom hatom hnone
      have hmem := AtomTable.mem_unvalued.2 ⟨hatom, hnone⟩
      rw [show ctx₁.atoms.unvalued = [] from hchosen] at hmem
      exact List.not_mem_nil hmem
    · rename_i atom heq
      rw [heq] at hchosen
      obtain ⟨hatom, hnone⟩ := AtomTable.mem_unvalued.1 hchosen
      rw [hsimilar.placements.count] at hatom
      rw [hsimilar.placements.placement] at hnone
      exact ⟨hatom, hnone⟩
  -- or the top of the heap, which holds every open atom
  | false =>
    obtain ⟨atom, table, hmost, hcoherent', hsame, hatom⟩ := hsimilar.coherent.mostActive?_spec
    simp only [Bool.false_eq_true, if_false, ensures_bind, ensures_get, hmost, entry, ensures_pure,
      ensures_set]
    refine ⟨hsimilar.trans ⟨rfl, rfl, rfl, rfl, rfl, rfl, hcoherent', hsame⟩, ?_⟩
    cases atom with
    | none => exact hsimilar.total_iff.1 hatom
    | some atom =>
      simpa only [hsimilar.placements.count, hsimilar.placements.placement] using hatom

theorem decision_spec (hcoherent : ctx.atoms.Coherent) :
    Ensures decision ctx (fun literal ctx' => ctx.Similar ctx' ∧
      match literal with
      | none => ctx.Total
      | some literal => ctx.Open literal) never := by
  unfold decision
  rw [ensures_bind]
  refine ensures_of_never (chooseAtom_spec hcoherent) ?_
  rintro (_ | atom) ctx₁ ⟨hsimilar, hatom⟩
  · exact ⟨hsimilar, hatom⟩
  · simp only [ensures_modifyGet]
    exact ⟨hsimilar.trans ⟨rfl, rfl, rfl, rfl, rfl, rfl, hsimilar.coherent, .refl _⟩, hatom⟩

end choice

/-! ## A level for the decision -/

structure Decided (ctx : Context ρ) (literal : Literal) (ctx' : Context ρ) (late : Prop := True) :
    Prop where
  extension : ctx.Extends ctx'
  state : ctx'.state = ctx.state
  level : ctx'.trail.level = ctx.trail.level + 1
  marked : ctx'.trail.marked = ctx.trail.marked ++ [(literal, ctx.trail.level + 1)]
  reason : ∀ mark ∈ ctx.trail.marked,
    ctx'.graph.reason? mark.1.atom = ctx.graph.reason? mark.1.atom
  waiting : ctx'.Waiting [literal] late
  units : ∀ source, (ctx'.clauses.shelf source).units = (ctx.clauses.shelf source).units
  sound : ∀ M, ctx.Sound M → ctx'.Sound M
  accounted : ∀ log, ctx.Accounted log → ctx'.Accounted log

def withLevel (ctx : Context ρ) : Context ρ := { ctx with trail := ctx.trail.openLevel }

theorem Agrees.withLevel (h : ctx.Agrees) : ctx.withLevel.Agrees := by
  refine ⟨h.coherent, fun atom placement => ?_, h.stored⟩
  rw [Context.withLevel, marked_openLevel]
  exact h.placed atom placement

theorem record_decision_spec (h : ctx.Waiting [] late) (hopen : ctx.Open literal) :
    Ensures (do openLevel; record literal none) ctx
      (fun _ ctx' => ctx.Decided literal ctx' late) never := by
  have hagrees := h.intact.agrees
  have hagrees' := hagrees.withLevel
  simp only [openLevel, ensures_bind, ensures_modify]
  refine ensures_of_never (record_spec hagrees' hopen.1 hopen.2 (by simp)) ?_
  intro _ ctx' hrecorded
  have hmarks : ctx.withLevel.trail.marked = ctx.trail.marked := marked_openLevel _
  have hlevel : ctx'.trail.level = ctx.trail.level + 1 := hrecorded.level
  have hmarked : ctx'.trail.marked = ctx.trail.marked ++ [(literal, ctx.trail.level + 1)] := by
    rw [hrecorded.marked, ← hmarks]
    rfl
  have hextends : ctx.Extends ctx.withLevel :=
    ⟨rfl, rfl, fun _ => rfl, .refl _, fun other hother => by rw [hmarks]; exact hother⟩
  have hguarded : ctx.withLevel.Guarded (fun _ _ => False) late := by
    unfold Guarded
    rw [hmarks]
    exact h.guarded.mono fun _ _ hmem => List.not_mem_nil hmem
  have hknown : ∀ atom key, ctx.withLevel.graph.reason? atom = some key → ctx.withLevel.Known key :=
    fun atom key hkey => hextends.known (h.intact.known atom key hkey)
  have hheld : ∀ other ∈ [literal], (other, ctx'.trail.level) ∈ ctx'.trail.marked := by
    intro other hother
    rw [hlevel, hmarked, List.mem_singleton.1 hother]
    exact List.mem_append_right _ List.mem_cons_self
  have hfilled : ctx'.trail.Filled := by
    rw [hrecorded.trail]
    exact filled_push h.intact.filled
  refine ⟨hextends.trans hrecorded.extends, hrecorded.same.state, hlevel, hmarked,
    fun mark hmark => hrecorded.reason_eq hagrees' hopen.2 mark (hmarks ▸ hmark),
    ⟨⟨hrecorded.agrees, hrecorded.exact h.intact.exact, hrecorded.known_reasons hknown, hfilled⟩,
      hheld, hrecorded.guarded_only hguarded⟩, fun source => ?_, fun M hM => ⟨?_, ?_, ?_⟩,
    fun log haccounted => ?_⟩
  · rw [hrecorded.same.clauses]
    rfl
  · -- nothing stands on the new level before the decision
    have hjustified : ctx.withLevel.Justified := by
      unfold Justified
      rw [hmarks]
      exact hM.justified
    refine hrecorded.justified hjustified hagrees' ⟨Nat.succ_pos _, fun mark hmark => ?_⟩ hopen.2
    rw [hmarks] at hmark
    exact Nat.lt_succ_of_le (level_le hmark)
  · rw [hrecorded.same.clauses]
    exact hM.entailed
  · rw [hrecorded.same.state]
    exact hM.refuted
  · have haccounted' : ctx.withLevel.Accounted log :=
      haccounted.mono (.refl _) (fun _ => rfl) (fun _ => rfl) hmarks haccounted.records
    exact hrecorded.accounted haccounted' hagrees' hopen.2 (by simp [reasonAtoms]) (by simp)

theorem Decided.left_lt (h : ctx.Decided literal ctx') : ctx'.left < ctx.left :=
  left_lt_of_concat h.waiting h.extension h.marked

theorem Similar.left (h : ctx.Similar ctx') : ctx'.left = ctx.left := by
  unfold Context.left
  rw [h.placements.count, h.trail]

end Satisfiability.Context
