import Satisfiability.Proofs.Context.Guard
import Satisfiability.Proofs.Context.Values

/-!
# Storing clauses

A clause is stored with its literals in the order in which they are watched: those that are not
false first, then the false ones, those that became false last in front (`pairwise_watchOrder`). So
its watches promise what they should if some literal is not false, and also if all are false,
provided that the watches count as pending (`guarded_of_pairwise`).
-/

namespace Satisfiability.Context

open Search Step Trail

variable {ρ : Type} {ctx ctx' : Context ρ} {literal : Literal} {clause : Clause}

theorem Agrees.of_samePlacements (h : ctx.Agrees) {atoms : AtomTable Float}
    (hcoherent : atoms.Coherent) (hsame : ctx.atoms.SamePlacements atoms) :
    ({ ctx with atoms } : Context ρ).Agrees := by
  refine ⟨hcoherent, ?_, ?_⟩
  · intro atom placement
    change atoms.placement? atom = some placement ↔ _
    rw [hsame.placement]
    exact h.placed atom placement
  · intro key clause hclause
    obtain ⟨hnodup, hatoms⟩ := h.stored key clause hclause
    refine ⟨hnodup, fun literal hliteral => ?_⟩
    change literal.atom < atoms.count
    rw [hsame.count]
    exact hatoms literal hliteral

structure Similar (ctx ctx' : Context ρ) : Prop where
  config : ctx'.config = ctx.config
  clauses : ctx'.clauses = ctx.clauses
  watches : ctx'.watches = ctx.watches
  trail : ctx'.trail = ctx.trail
  graph : ctx'.graph = ctx.graph
  state : ctx'.state = ctx.state
  coherent : ctx'.atoms.Coherent
  placements : ctx.atoms.SamePlacements ctx'.atoms

theorem bump_spec (hcoherent : ctx.atoms.Coherent) {atom : Atom} (hatom : atom < ctx.atoms.count) :
    Ensures (bump atom) ctx (fun _ ctx' => ∃ atoms, ctx' = { ctx with atoms } ∧ atoms.Coherent ∧
      ctx.atoms.SamePlacements atoms) never := by
  obtain ⟨atoms, hbump, hcoherent', hsame⟩ :=
    hcoherent.bump?_spec ctx.config.activityBump.value hatom
  unfold bump
  simp only [ensures_bind, ensures_get, hbump, entry, ensures_pure, ensures_set]
  exact ⟨atoms, rfl, hcoherent', hsame⟩

theorem forM_bump_spec (atoms : List Atom) (hcoherent : ctx.atoms.Coherent)
    (hatoms : ∀ atom ∈ atoms, atom < ctx.atoms.count) :
    Ensures (atoms.forM bump) ctx (fun _ ctx' => ∃ atoms, ctx' = { ctx with atoms } ∧
      atoms.Coherent ∧ ctx.atoms.SamePlacements atoms) never := by
  induction atoms generalizing ctx with
  | nil => exact ⟨ctx.atoms, rfl, hcoherent, .refl _⟩
  | cons atom rest ih =>
    rw [ensures_forM_cons]
    refine ensures_of_never (bump_spec hcoherent (hatoms atom List.mem_cons_self)) ?_
    rintro _ _ ⟨table, rfl, hcoherent', hsame⟩
    have hrest : ∀ other ∈ rest, other < table.count := by
      intro other hother
      rw [hsame.count]
      exact hatoms other (List.mem_cons_of_mem _ hother)
    refine ensures_of_never (ih hcoherent' hrest) ?_
    rintro _ _ ⟨table', rfl, hcoherent'', hsame'⟩
    exact ⟨table', rfl, hcoherent'', hsame.trans hsame'⟩

/-! ## The order of watches -/

theorem perm_placeByLevel (level : Literal → Nat) (literal : Literal) (clause : Clause) :
    (placeByLevel level literal clause).Perm (literal :: clause) := by
  induction clause with
  | nil => exact .refl _
  | cons other rest ih =>
    unfold placeByLevel
    split
    · exact .refl _
    · exact (ih.cons other).trans (.swap ..)

theorem pairwise_placeByLevel {level : Literal → Nat} {clause : Clause} (literal : Literal)
    (h : clause.Pairwise fun a b => level b ≤ level a) :
    (placeByLevel level literal clause).Pairwise fun a b => level b ≤ level a := by
  induction clause with
  | nil => exact List.pairwise_singleton ..
  | cons other rest ih =>
    rw [List.pairwise_cons] at h
    unfold placeByLevel
    split
    · rename_i hle
      refine List.pairwise_cons.2 ⟨fun x hx => ?_, List.pairwise_cons.2 h⟩
      rcases List.mem_cons.1 hx with rfl | hx
      · exact hle
      · exact Nat.le_trans (h.1 x hx) hle
    · rename_i hlt
      refine List.pairwise_cons.2 ⟨fun x hx => ?_, ih h.2⟩
      rcases List.mem_cons.1 ((perm_placeByLevel ..).mem_iff.1 hx) with rfl | hx
      · omega
      · exact h.1 x hx

theorem foldr_placeByLevel (level : Literal → Nat) (clause : Clause) :
    (clause.foldr (placeByLevel level) []).Perm clause ∧
      (clause.foldr (placeByLevel level) []).Pairwise fun a b => level b ≤ level a := by
  induction clause with
  | nil => exact ⟨.refl _, .nil⟩
  | cons literal rest ih =>
    exact ⟨(perm_placeByLevel ..).trans (ih.1.cons literal), pairwise_placeByLevel literal ih.2⟩

theorem perm_watchOrder (ctx : Context ρ) (clause : Clause) :
    (ctx.watchOrder clause).Perm clause := by
  unfold watchOrder
  simp only [List.partition_eq_filter_filter]
  refine ((foldr_placeByLevel _ _).1.append_left _).trans ?_
  exact List.perm_append_comm.trans (List.filter_append_perm _ clause)

theorem exists_watchOrder (ctx : Context ρ) (hlength : 2 ≤ clause.length) :
    ∃ first second others, ctx.watchOrder clause = first :: second :: others := by
  have hlength' := (perm_watchOrder ctx clause).length_eq
  match hw : ctx.watchOrder clause with
  | [] | [_] => simp only [hw, List.length_nil, List.length_singleton] at hlength'; omega
  | first :: second :: others => exact ⟨first, second, others, rfl⟩

/-- Behind a false literal stand only literals that were false by its level. -/
theorem pairwise_watchOrder (h : ctx.Agrees) (clause : Clause) :
    (ctx.watchOrder clause).Pairwise fun a b =>
      ∀ level, (-a, level) ∈ ctx.trail.marked → TrueBy ctx.trail.marked level (-b) := by
  unfold watchOrder
  simp only [List.partition_eq_filter_filter]
  have hsorted := foldr_placeByLevel (fun literal => (ctx.atoms.level? literal.atom).getD 0)
    (clause.filter fun literal => ctx.valuation.status literal == .fails)
  have hfails : ∀ literal ∈ (clause.filter fun literal =>
      ctx.valuation.status literal == .fails).foldr (placeByLevel fun literal =>
        (ctx.atoms.level? literal.atom).getD 0) [],
      ∃ level, (-literal, level) ∈ ctx.trail.marked := by
    intro literal hmem
    have hstatus := (List.mem_filter.1 (hsorted.1.mem_iff.1 hmem)).2
    exact h.fails_iff.1 (by simpa using hstatus)
  have hopen : ∀ literal ∈ clause.filter (not ∘ fun literal =>
      ctx.valuation.status literal == .fails), ∀ level, (-literal, level) ∉ ctx.trail.marked := by
    intro literal hmem level hlevel
    have hstatus := (List.mem_filter.1 hmem).2
    simp only [Function.comp_apply, h.fails_iff.2 ⟨level, hlevel⟩] at hstatus
    exact absurd hstatus (by simp)
  -- the open literals come first, and promise nothing
  rw [List.pairwise_append]
  refine ⟨?_, ?_, ?_⟩
  · exact List.pairwise_of_forall_mem_list fun a ha _ _ level hlevel =>
      absurd hlevel (hopen a ha level)
  · refine hsorted.2.imp_of_mem ?_
    intro a b _ hb hle level hlevel
    obtain ⟨i, hi⟩ := hfails b hb
    rw [h.level?_of_neg_mem hlevel, h.level?_of_neg_mem hi] at hle
    exact ⟨i, hle, hi⟩
  · exact fun a ha _ _ level hlevel => absurd hlevel (hopen a ha level)

/-- In that order the watches keep their promises, if they are pending where the first one is
false. -/
theorem guarded_of_pairwise {marks : List (Literal × Nat)} {pending : Literal → Prop}
    {watched : WatchedClause}
    (hsorted : watched.literals.Pairwise fun a b =>
      ∀ level, (-a, level) ∈ marks → TrueBy marks level (-b))
    (hpending : ∀ i, (-watched.first, i) ∈ marks →
      pending watched.first ∧ ∀ j, (-watched.second, j) ∈ marks → pending watched.second) :
    watched.Guarded marks pending := by
  unfold WatchedClause.literals at hsorted
  simp only [List.pairwise_cons] at hsorted
  constructor
  · intro level hlevel hnot
    exact absurd (hpending level hlevel).1 hnot
  · intro level hlevel hnot
    refine Or.inr ⟨trivial, Or.inr fun i hi => hnot ((hpending i hi).2 level hlevel), ?_⟩
    exact fun x hx => hsorted.2.1 x hx level hlevel

/-! ## The operations -/

structure Stored (ctx : Context ρ) (clause : Clause) (source : Source) (key : ClauseKey)
    (ctx' : Context ρ) : Prop where
  agrees : ctx'.Agrees
  exact : WatchIndex.Exact ctx'.clauses ctx'.watches
  config : ctx'.config = ctx.config
  state : ctx'.state = ctx.state
  trail : ctx'.trail = ctx.trail
  graph : ctx'.graph = ctx.graph
  atoms : ctx.atoms.SamePlacements ctx'.atoms
  fresh : ctx.clauses.get? key = none
  get? : ∃ watched : WatchedClause, watched.literals = ctx.watchOrder clause ∧
    ∀ other, ctx'.clauses.get? other = if other = key then some watched else ctx.clauses.get? other
  shelved : ∃ watched : WatchedClause, watched.literals = ctx.watchOrder clause ∧
    ctx'.clauses = ctx.clauses.setShelf source { ctx.clauses.shelf source with
      stored := (ctx.clauses.shelf source).stored.push watched }
  units : ∀ source, (ctx'.clauses.shelf source).units = (ctx.clauses.shelf source).units

/-- The fault is that no number is left for an atom, or for a clause on one of the shelves. -/
inductive Depleted : Fault → Context ρ → Prop
  | atoms {ctx : Context ρ} (full : ctx.atoms.isFull) : Depleted (.atoms .exhausted) ctx
  | clauses {ctx : Context ρ} {source : Source} (full : (ctx.clauses.shelf source).isFull) :
    Depleted (.clauses .storageExhausted) ctx

structure StorageExhausted (source : Source) (fault : Fault) (ctx : Context ρ) : Prop where
  cause : fault = .clauses .storageExhausted
  full : (ctx.clauses.shelf source).isFull

theorem StorageExhausted.depleted {source : Source} {fault : Fault}
    (h : StorageExhausted source fault ctx) : Depleted fault ctx := by
  rw [h.cause]
  exact .clauses h.full

theorem StorageExhausted.ne_outOfFuel {source : Source} {fault : Fault}
    (h : StorageExhausted source fault ctx) : fault ≠ .outOfFuel := by
  rw [h.cause]
  simp

structure Refused (ctx : Context ρ) (source : Source) (fault : Fault) (ctx' : Context ρ) : Prop
    extends StorageExhausted source fault ctx' where
  similar : ctx.Similar ctx'

theorem storeClause_spec (h : ctx.Agrees) (hexact : WatchIndex.Exact ctx.clauses ctx.watches)
    (hnodup : clause.Nodup) (hatoms : ∀ literal ∈ clause, literal.atom < ctx.atoms.count)
    (hlength : 2 ≤ clause.length) (source : Source) :
    Ends (storeClause clause source) ctx (fun key ctx' => ctx.Stored clause source key ctx')
      fun fault ctx' => ctx.Refused source fault ctx' := by
  have hperm := perm_watchOrder ctx clause
  obtain ⟨first, second, others, horder⟩ := ctx.exists_watchOrder hlength
  rw [horder] at hperm
  have hdistinct : first ≠ second := by
    have := hperm.nodup_iff.2 hnodup
    grind
  unfold storeClause
  simp only [ends_bind, if_neg (Nat.not_lt.2 hlength), ends_get, horder]
  refine ends_of_ensures (forM_bump_spec _ h.coherent ?_) ?_
  · intro atom hatom
    obtain ⟨literal, hliteral, rfl⟩ := List.mem_map.1 hatom
    exact hatoms literal (hperm.mem_iff.1 hliteral)
  · rintro _ _ ⟨table, rfl, hcoherent, hsame⟩
    -- activities are raised before the shelf turns out to be full
    by_cases hfull : (ctx.clauses.shelf source).isFull
    · simp only [ClauseStore.store_full hfull, ends_throw]
      exact ⟨⟨rfl, hfull⟩, rfl, rfl, rfl, rfl, rfl, rfl, hcoherent, hsame⟩
    obtain ⟨key, store, hstore, hfresh, hget, hshelf, hunits⟩ :=
      ClauseStore.store_spec ctx.clauses first second others hfull
    simp only [hstore, ends_bind, ends_set, ends_pure]
    have hwatch := hexact.watch_new hfresh hget hdistinct
    have hagrees := h.of_samePlacements hcoherent hsame
    have hwatched : (WatchedClause.mk first second others).literals = ctx.watchOrder clause :=
      horder.symm
    refine ⟨⟨hcoherent, hagrees.placed, ?_⟩, ?_, rfl, rfl, rfl, rfl, hsame, hfresh,
      ⟨_, hwatched, hget⟩, ⟨_, hwatched, hshelf⟩, hunits⟩
    · intro other clause' hclause'
      rw [show ClauseStore.get? store other = _ from hget other] at hclause'
      split at hclause'
      · cases hclause'
        refine ⟨hperm.nodup_iff.2 hnodup, fun literal hliteral => ?_⟩
        change literal.atom < table.count
        rw [hsame.count]
        exact hatoms literal (hperm.mem_iff.1 hliteral)
      · exact hagrees.stored other clause' hclause'
    · exact hwatch

end Satisfiability.Context
