import Satisfiability.Proofs.Context.Analysis
import Satisfiability.Proofs.Context.Rank
import Satisfiability.Context.Solve

/-!
# Learning from conflicts

A learnt clause is stored after the return to the level at which it forces a literal. Then only that
literal waits to be propagated (`Learnt`). If no number is left for the clause, the return is all
that has happened (`Forgone`). Each conflict raises the rank of the trail, so learning ends within
its budget (`propagateLearning_ends`). The only other faults are those of an analysis that meets a
literal which is not justified (`Stuck`).
-/

namespace Satisfiability.Context

open Search Step Trail

variable {ρ : Type} {ctx ctx' ctx'' : Context ρ} {clause : Clause} {literal asserted : Literal}
  {target : Nat} {key : ClauseKey} {late : Prop}

/-- What learning from a clause does: the trail is taken back to a level and a literal put there. -/
structure Learnt (ctx : Context ρ) (clause : Clause) (asserted : Literal) (target : Nat)
    (ctx' : Context ρ) (late : Prop := True) : Prop where
  extension : ctx.Extends ctx'
  state : ctx'.state = ctx.state
  level : ctx'.trail.level = target
  marked : ctx'.trail.marked = upTo target ctx.trail.marked ++ [(asserted, target)]
  reason : ∀ mark ∈ upTo target ctx.trail.marked,
    ctx'.graph.reason? mark.1.atom = ctx.graph.reason? mark.1.atom
  waiting : ctx'.Waiting [asserted] late
  units : ∀ source literal, literal ∈ (ctx'.clauses.shelf source).units →
    literal ∈ (ctx.clauses.shelf source).units ∨ clause = [literal]
  sound : ∀ M, ctx.Sound M → ctx.ForcedBy clause asserted target →
    (∀ model, M model → Satisfied model clause) → ctx'.Sound M
  accounted : ∀ log, ctx.Accounted log → ctx.ForcedBy clause asserted target →
    ctx.Highest clause asserted target → ctx'.Accounted (log ++ logged .addition clause)
  added : ctx'.clauses.Added clause

/-- The search has returned to a level, where nothing waits and the clause was refused. -/
def Forgone (ctx : Context ρ) (target : Nat) (fault : Fault) (ctx' : Context ρ)
    (late : Prop := True) : Prop :=
  target < ctx.trail.level ∧ ∃ before, ctx.Returned target before ∧ before.Waiting [] late ∧
    before.Refused .addition fault ctx'

/-- The search has come to such a return in the end, and all was sound. -/
structure Exhausted (ctx : Context ρ) (fault : Fault) (ctx' : Context ρ) : Prop
    extends StorageExhausted .addition fault ctx' where
  sound : ∀ M, ctx.Sound M → ctx'.Sound M

theorem Similar.of_bump {atoms : AtomTable Float} (hcoherent : atoms.Coherent)
    (hsame : ctx.atoms.SamePlacements atoms) : ctx.Similar { ctx with atoms } :=
  ⟨rfl, rfl, rfl, rfl, rfl, rfl, hcoherent, hsame⟩

theorem similar_decay (hcoherent : ctx.atoms.Coherent) (factor : Float) :
    ctx.Similar { ctx with atoms := ctx.atoms.decay factor } := by
  obtain ⟨hcoherent', hsame⟩ := hcoherent.decay factor
  exact ⟨rfl, rfl, rfl, rfl, rfl, rfl, hcoherent', hsame⟩

theorem Similar.waiting {waiting : List Literal} (h : ctx.Similar ctx')
    (hwaiting : ctx.Waiting waiting late) : ctx'.Waiting waiting late := by
  refine ⟨h.intact hwaiting.intact, ?_, h.guarded hwaiting.guarded⟩
  rw [h.trail]
  exact hwaiting.held

/-- The literals of a clause that are false by a level stand on the trail taken back to it. -/
theorem ForcedBy.forces {store : ClauseStore} {clause' : Clause} {marks : List (Literal × Nat)}
    (h : ctx.ForcedBy clause asserted target) (hmem : asserted ∈ clause)
    (hhas : store.Has key clause') (hperm : clause'.Perm clause)
    (hmarks : marks = upTo target ctx.trail.marked) :
    Forces store marks key asserted marks.length := by
  refine ⟨clause', hhas, hperm.mem_iff.2 hmem, fun other hother hne => ?_⟩
  obtain ⟨level, hlevel, hmark⟩ := h other (hperm.mem_iff.1 hother) hne
  have hin : (-other, level) ∈ marks := by
    rw [hmarks]
    exact mem_upTo.2 ⟨hmark, hlevel⟩
  obtain ⟨i, hi⟩ := List.mem_iff_getElem?.1 hin
  exact ⟨i, (List.getElem?_eq_some_iff.1 hi).1, level, hi⟩

theorem ForcedBy.anchors {store : ClauseStore} {clause' : Clause} {marks : List (Literal × Nat)}
    (h : ctx.ForcedBy clause asserted target) (hhighest : ctx.Highest clause asserted target)
    (hagrees : ctx.Agrees) (htarget : 0 < target) (hhas : store.Has key clause')
    (hperm : clause'.Perm clause) (hmarks : marks = upTo target ctx.trail.marked) :
    Anchors store marks key asserted target := by
  obtain ⟨other, hother, hatom, hlevel⟩ := hhighest.resolve_left (Nat.ne_of_gt htarget)
  have hne : other ≠ asserted := fun heq => hatom (congrArg Literal.atom heq)
  obtain ⟨level, _, hmark⟩ := h other hother hne
  rw [hagrees.level?_of_neg_mem hmark, Option.some.injEq] at hlevel
  subst hlevel
  refine ⟨clause', hhas, other, hperm.mem_iff.2 hother, hne, ?_⟩
  rw [hmarks]
  exact mem_upTo.2 ⟨hmark, Nat.le_refl _⟩

theorem Assertable.open_of_returned (h : ctx.Assertable clause asserted target)
    (hagrees : ctx.Agrees) (hreturned : ctx.Returned target ctx') :
    ∀ mark ∈ ctx'.trail.marked, mark.1.atom ≠ asserted.atom := by
  rintro ⟨other, level⟩ hmem hatom
  rw [hreturned.marked] at hmem
  obtain ⟨hmark, hle⟩ := mem_upTo.1 hmem
  obtain ⟨level', hlevel', hlt⟩ := h.above
  obtain ⟨value, hmark'⟩ := hagrees.level?_eq_some.1 hlevel'
  have := (hagrees.unique_mem hmark hmark' hatom).2
  simp only at hle
  omega

/-- The last step of learning: the key is that of the clause, and the literal is given its value. -/
theorem record_asserted (hmem : asserted ∈ clause) (hlt : asserted.atom < ctx.atoms.count)
    (hreturned : ctx.Returned target ctx')
    (hopen : ∀ mark ∈ ctx'.trail.marked, mark.1.atom ≠ asserted.atom) (hextends : ctx'.Extends ctx'')
    (hstate : ctx''.state = ctx'.state)
    (htrail : ctx''.trail = ctx'.trail) (hgraph : ctx''.graph = ctx'.graph) (hintact : ctx''.Intact)
    (hguarded : ∀ ctx₃, ctx''.Recorded asserted (some key) ctx₃ →
      ctx₃.Guarded (fun _ other => -other ∈ [asserted]) late)
    (hknown : ctx''.Known key)
    (hhas : ∃ clause', ctx''.clauses.Has key clause' ∧ clause'.Perm clause)
    (hunits : ∀ source literal, literal ∈ (ctx''.clauses.shelf source).units →
      literal ∈ (ctx'.clauses.shelf source).units ∨ clause = [literal])
    (hsound : ∀ M, ctx'.Sound M → (∀ model, M model → Satisfied model clause) → ctx''.Sound M)
    (haccounted : ∀ log, ctx'.Accounted log → ctx''.Accounted (log ++ logged .addition clause))
    (hadded : ctx''.clauses.Added clause) (hagrees : ctx.Agrees) :
    Ensures (record asserted (some key)) ctx''
      (fun _ ctx₃ => ctx.Learnt clause asserted target ctx₃ late) never := by
  rw [← htrail] at hopen
  have hnone := hintact.agrees.placement_eq_none.2 hopen
  have hcount := hreturned.extends.count
  have hatom : asserted.atom < ctx''.atoms.count := by
    rw [hextends.count, hcount]
    exact hlt
  have hreason : ∀ other, some key = some other → ctx''.Known other := by
    rintro _ ⟨⟩
    exact hknown
  refine ensures_of_never (record_spec hintact.agrees hatom hnone hreason) ?_
  intro _ ctx₃ hrecorded
  -- the literal goes to the end of what the return left
  have hlevel : ctx₃.trail.level = target := by rw [hrecorded.level, htrail, hreturned.level]
  have hmarked : ctx₃.trail.marked = upTo target ctx.trail.marked ++ [(asserted, target)] := by
    rw [hrecorded.marked, htrail, hreturned.marked, hreturned.level]
  have hwaiting : ∀ other ∈ [asserted], (other, ctx₃.trail.level) ∈ ctx₃.trail.marked := by
    intro other hother
    rw [hlevel, hmarked, List.mem_singleton.1 hother]
    exact List.mem_append_right _ List.mem_cons_self
  obtain ⟨clause', hhas', hperm⟩ := hhas
  refine ⟨(hreturned.extends.trans hextends).trans hrecorded.extends, ?_, hlevel, hmarked,
    fun mark hmark => ?_, ⟨hrecorded.intact hintact, hwaiting, hguarded ctx₃ hrecorded⟩,
    fun source literal hunit => ?_, ?_, fun log h hforced hhighest => ?_,
    hrecorded.same.clauses.symm ▸ hadded⟩
  · rw [hrecorded.same.state, hstate, hreturned.same.state]
  · rw [← hreturned.marked, ← htrail] at hmark
    rw [hrecorded.reason_eq hintact.agrees hnone mark hmark, hgraph]
    exact hreturned.reason mark (htrail ▸ hmark)
  · rw [hrecorded.same.clauses] at hunit
    rw [← hreturned.same.clauses]
    exact hunits source literal hunit
  · intro M hM hforced hclause
    have hM'' := hsound M (hreturned.sound hM) hclause
    -- its reason is false below the target, so before the place it gets
    have hforces := hforced.forces hmem hhas' hperm (htrail ▸ hreturned.marked)
    refine ⟨hrecorded.justified hM''.justified hintact.agrees hforces hnone, ?_, ?_⟩
    · rw [hrecorded.same.clauses]
      exact hM''.entailed
    · rw [hrecorded.same.state]
      exact hM''.refuted
  · have hforces := hforced.forces hmem hhas' hperm (htrail ▸ hreturned.marked)
    refine hrecorded.accounted (haccounted log (hreturned.accounted h)) hintact.agrees hnone
      hforces.valued ?_
    rintro _ ⟨⟩ hpos
    rw [htrail, hreturned.level] at hpos ⊢
    exact hforced.anchors hhighest hagrees hpos hhas' hperm hreturned.marked

/-- The watches of a clause keep their promises if one of its literals has no value. -/
theorem Stored.guarded_of_open {source : Source} (hstored : ctx.Stored clause source key ctx')
    (hagrees : ctx.Agrees) (hguarded : ctx.Guarded fun _ _ => False) (hmem : literal ∈ clause)
    (hopen : ∀ mark ∈ ctx.trail.marked, mark.1.atom ≠ literal.atom) :
    ctx'.Guarded fun _ _ => False := by
  refine hstored.guarded hguarded fun watched hliterals => ?_
  have hsorted := pairwise_watchOrder hagrees clause
  rw [← hliterals] at hsorted
  refine guarded_of_pairwise hsorted fun i hi => ?_
  unfold WatchedClause.literals at hsorted hliterals
  have hin : literal ∈ watched.first :: watched.second :: watched.others := by
    rw [hliterals]
    exact (perm_watchOrder ctx clause).mem_iff.2 hmem
  -- behind a false literal there are only false ones
  rcases List.mem_cons.1 hin with rfl | hin
  · exact absurd rfl (hopen _ hi)
  · obtain ⟨j, _, hj⟩ := (List.pairwise_cons.1 hsorted).1 literal hin i hi
    exact absurd rfl (hopen _ hj)

/-- The watches of a clause keep their promises once it has forced a literal, if the others are
false at no higher level and one of them on the level itself. -/
theorem guarded_of_asserted {marks : List (Literal × Nat)} {watched : WatchedClause}
    (hsorted : watched.literals.Pairwise fun a b =>
      ∀ level, (-a, level) ∈ marks → TrueBy marks level (-b))
    (hmem : asserted ∈ watched.literals) (hopen : ∀ mark ∈ marks, mark.1.atom ≠ asserted.atom)
    (hhighest : target = 0 ∨ ∃ other ∈ watched.literals, other.atom ≠ asserted.atom ∧
      ∀ level, (-other, level) ∈ marks → level = target) :
    watched.Guarded (marks ++ [(asserted, target)]) (fun other => -other ∈ [asserted]) late := by
  unfold WatchedClause.literals at hsorted hmem hhighest
  simp only [List.pairwise_cons] at hsorted
  have hnot : ∀ level, (-asserted, level) ∉ marks := fun level hmark => hopen _ hmark rfl
  -- a watch that does not wait became false before
  have hbefore : ∀ watch level, (-watch, level) ∈ marks ++ [(asserted, target)] →
      ¬ -watch ∈ [asserted] → (-watch, level) ∈ marks := by
    intro watch level hmark hwaits
    rcases List.mem_append.1 hmark with hmark | hmark
    · exact hmark
    · cases List.mem_singleton.1 hmark
      exact absurd List.mem_cons_self hwaits
  constructor
  · -- behind a false literal there is no open one
    intro level hmark hwaits
    have hfalse := hbefore _ level hmark hwaits
    rcases List.mem_cons.1 hmem with rfl | hmem
    · exact absurd hfalse (hnot level)
    · obtain ⟨i, _, hi⟩ := hsorted.1 asserted hmem level hfalse
      exact absurd hi (hnot i)
  · intro level hmark hwaits
    have hfalse := hbefore _ level hmark hwaits
    have hfirst : asserted = watched.first := by
      refine (List.mem_cons.1 hmem).resolve_right fun hmem => ?_
      rcases List.mem_cons.1 hmem with rfl | hmem
      · exact hnot level hfalse
      · obtain ⟨i, _, hi⟩ := hsorted.2.1 asserted hmem level hfalse
        exact hnot i hi
    refine Or.inl ⟨target, ?_, hfirst ▸ List.mem_append_right _ List.mem_cons_self⟩
    rcases hhighest with rfl | ⟨other, hother, hne, hlevel⟩
    · exact Nat.zero_le _
    · rcases List.mem_cons.1 hother with rfl | hother
      · exact absurd (congrArg Literal.atom hfirst.symm) hne
      · rcases List.mem_cons.1 hother with rfl | hother
        · exact Nat.le_of_eq (hlevel level hfalse).symm
        · obtain ⟨i, hi, hmark'⟩ := hsorted.2.1 other hother level hfalse
          exact hlevel i hmark' ▸ hi

theorem Stored.guarded_asserted {source : Source} (hstored : ctx.Stored clause source key ctx')
    (hagrees : ctx.Agrees) (hguarded : ctx.Guarded (fun _ _ => False) late) (hmem : asserted ∈ clause)
    (hopen : ∀ mark ∈ ctx.trail.marked, mark.1.atom ≠ asserted.atom)
    (hhighest : target = 0 ∨ ∃ other ∈ clause, other.atom ≠ asserted.atom ∧
      ∀ level, (-other, level) ∈ ctx.trail.marked → level = target)
    {other : ClauseKey} {watched : WatchedClause}
    (hget : ctx'.clauses.get? other = some watched) :
    watched.Guarded (ctx.trail.marked ++ [(asserted, target)]) (fun x => -x ∈ [asserted]) late := by
  obtain ⟨watched', hliterals, hget'⟩ := hstored.get?
  rw [hget'] at hget
  split at hget
  · cases hget
    have hperm := perm_watchOrder ctx clause
    have hsorted := pairwise_watchOrder hagrees clause
    rw [← hliterals] at hsorted hperm
    refine guarded_of_asserted hsorted (hperm.mem_iff.2 hmem) hopen (hhighest.imp_right ?_)
    rintro ⟨x, hx, hrest⟩
    exact ⟨x, hperm.mem_iff.2 hx, hrest⟩
  · exact (hguarded other watched hget).push (fun _ hfalse => hfalse.elim) (by simp)

section backtrack

variable {pending : ClauseKey → Literal → Prop} (hintact : ctx.Intact)
  (hguarded : ctx.Guarded pending late)
  (hpending : ∀ key other level, pending key other →
    (-other, level) ∈ ctx.trail.marked → target < level)

include hintact hguarded hpending

theorem backtrack_unit_spec (h : ctx.Assertable [asserted] asserted target) :
    Ensures (backtrack [asserted] asserted target) ctx
      (fun _ ctx' => ctx.Learnt [asserted] asserted target ctx' late) never := by
  have hagrees := hintact.agrees
  have hlt := h.proper.atoms asserted h.mem
  simp only [backtrack, ensures_bind, ensures_modify, ensures_pure]
  -- a single literal is asserted on the ground, where no other literal has to be false
  obtain rfl : target = 0 := h.single rfl
  refine ensures_of_never (backjump_spec hagrees (Nat.le_of_lt (h.target_lt hagrees))) ?_
  intro _ ctx₁ hreturned
  have hopen := h.open_of_returned hagrees hreturned
  have hintact₁ := hreturned.intact hintact
  have hatom : asserted.atom < ctx₁.atoms.count := by
    rw [hreturned.extends.count]
    exact hlt
  refine ensures_of_never (bump_spec hintact₁.agrees.coherent hatom) ?_
  rintro _ _ ⟨table, rfl, hcoherent, hsame⟩
  have hbumped : ctx₁.Similar { ctx₁ with atoms := table } := .of_bump hcoherent hsame
  refine ensures_of_never (noteUnit_spec asserted .addition) ?_
  rintro _ _ ⟨rfl, rfl⟩
  have hcoherent' : (withUnit { ctx₁ with atoms := table } asserted .addition).atoms.Coherent :=
    hcoherent
  have hdecayed := similar_decay hcoherent' ctx₁.config.activityDecay.value
  have hknown : Known { ctx₁ with atoms := table } (.unit .addition asserted) := by
    refine known_unit ?_ .addition
    change asserted.atom < table.count
    rw [hsame.count]
    exact hatom
  refine ensures_of_never (record_asserted h.mem hlt hreturned hopen
    ((hbumped.extends.trans extends_withUnit).trans hdecayed.extends) rfl rfl rfl
    (hdecayed.intact (hbumped.intact hintact₁).withUnit)
    (fun _ hrecorded => hrecorded.guarded_only
      (hdecayed.guarded (hbumped.guarded (hreturned.guarded hguarded hpending)).withUnit))
    (hdecayed.extends.known (extends_withUnit.known hknown))
    ⟨[asserted], has_noteUnit ctx₁.clauses asserted .addition, .refl _⟩ ?_ ?_ ?_
    (ClauseStore.added_noteUnit ctx₁.clauses asserted) hagrees) fun _ _ => id
  · exact fun _ _ hunit => mem_units_withUnit hunit
  · exact fun M hM hclause => hdecayed.sound ((hbumped.sound hM).withUnit fun model hmodel =>
      satisfied_singleton.1 (hclause model hmodel))
  · exact fun log haccounted =>
      hdecayed.accounted ((hbumped.accounted haccounted).withUnit .addition)

theorem Returned.waiting (hreturned : ctx.Returned target ctx') : ctx'.Waiting [] late :=
  ⟨hreturned.intact hintact, fun _ hfalse => absurd hfalse List.not_mem_nil,
    (hreturned.guarded hguarded hpending).mono fun _ _ => False.elim⟩

theorem backtrack_stored_spec {first second : Literal} {rest : Clause}
    (h : ctx.Assertable (first :: second :: rest) asserted target) :
    Ends (backtrack (first :: second :: rest) asserted target) ctx
      (fun _ ctx' => ctx.Learnt (first :: second :: rest) asserted target ctx' late)
      fun fault ctx' => ctx.Forgone target fault ctx' late := by
  have hagrees := hintact.agrees
  simp only [backtrack, ends_bind, ends_modify, ends_pure]
  refine ends_of_ensures (backjump_spec hagrees (Nat.le_of_lt (h.target_lt hagrees))) ?_
  intro _ ctx₁ hreturned
  have hopen := h.open_of_returned hagrees hreturned
  have hintact₁ := hreturned.intact hintact
  have hatoms : ∀ literal ∈ first :: second :: rest, literal.atom < ctx₁.atoms.count := by
    rw [hreturned.extends.count]
    exact h.proper.atoms
  refine ends_mono (storeClause_spec hintact₁.agrees hintact₁.exact h.proper.nodup hatoms
    (by simp) .addition) ?_ fun _ _ hrefused =>
      ⟨h.target_lt hagrees, ctx₁, hreturned, hreturned.waiting hintact hguarded hpending, hrefused⟩
  intro key ctx₂ hstored
  have hintact₂ := hstored.intact hintact₁
  have hdecayed := similar_decay hintact₂.agrees.coherent ctx₂.config.activityDecay.value
  obtain ⟨clause', hhas, hperm⟩ := hstored.has
  refine ends_of_ensures (record_asserted h.mem (h.proper.atoms asserted h.mem) hreturned hopen
    (hstored.extends.trans hdecayed.extends) hstored.state hstored.trail hstored.graph
    (hdecayed.intact hintact₂) (fun ctx₃ hrecorded other watched hget => ?_)
    (hdecayed.extends.known ⟨clause', ClauseStore.literals?_of_has hhas, ?_⟩)
    ⟨clause', hhas, hperm⟩ (fun source literal hunit => Or.inl ?_)
    (fun M hM hclause => hdecayed.sound (hstored.sound hM hclause))
    (fun log haccounted => hdecayed.accounted (hstored.accounted haccounted)) hstored.added hagrees)
    fun _ _ => id
  · -- the asserted literal is open after the return, so it is watched, and next to it one of the level
    rw [hrecorded.same.clauses, hdecayed.clauses] at hget
    rw [hrecorded.marked, hdecayed.trail, hstored.trail, hreturned.level]
    refine hstored.guarded_asserted hintact₁.agrees (hreturned.guarded hguarded hpending) h.mem hopen
      (h.highest.imp_right ?_) hget
    rintro ⟨other, hother, hne, hlevel⟩
    refine ⟨other, hother, hne, fun level hmark => ?_⟩
    rw [hreturned.marked] at hmark
    rw [hagrees.level?_of_neg_mem (mem_upTo.1 hmark).1, Option.some.injEq] at hlevel
    exact hlevel
  · intro literal hmem
    rw [hstored.extends.count]
    exact hatoms literal (hperm.mem_iff.1 hmem)
  · rw [hdecayed.clauses, hstored.units] at hunit
    exact hunit

end backtrack

theorem backtrack_spec (hintact : ctx.Intact) (h : ctx.Assertable clause asserted target)
    {pending : ClauseKey → Literal → Prop} (hguarded : ctx.Guarded pending late)
    (hpending : ∀ key other level, pending key other →
      (-other, level) ∈ ctx.trail.marked → target < level) :
    Ends (backtrack clause asserted target) ctx
      (fun _ ctx' => ctx.Learnt clause asserted target ctx' late)
      fun fault ctx' => 2 ≤ clause.length ∧ ctx.Forgone target fault ctx' late := by
  match clause, h with
  | [], h => exact absurd h.mem List.not_mem_nil
  | [only], h =>
    obtain rfl : asserted = only := List.mem_singleton.1 h.mem
    -- a clause of one literal takes no number
    exact ends_of_never (backtrack_unit_spec hintact hguarded hpending h)
  | _ :: _ :: _, h =>
    exact ends_mono (backtrack_stored_spec hintact hguarded hpending h) (fun _ _ => id)
      fun _ _ hforgone => ⟨Nat.le_add_left .., hforgone⟩

/-! ## Conflicts -/

def withConflict (ctx : Context ρ) : Context ρ :=
  { ctx with counters := { ctx.counters with conflicts := ctx.counters.conflicts + 1 } }

theorem similar_withConflict (hcoherent : ctx.atoms.Coherent) : ctx.Similar ctx.withConflict :=
  ⟨rfl, rfl, rfl, rfl, rfl, rfl, hcoherent, .refl _⟩

theorem Assertable.withConflict (h : ctx.Assertable clause asserted target) :
    ctx.withConflict.Assertable clause asserted target :=
  ⟨⟨h.proper.nodup, h.proper.atoms⟩, h.mem, h.above, h.single, h.highest⟩

theorem Learnt.of_withConflict (h : ctx.withConflict.Learnt clause asserted target ctx' late)
    (hcoherent : ctx.atoms.Coherent) : ctx.Learnt clause asserted target ctx' late := by
  have hcounted := similar_withConflict hcoherent
  exact ⟨hcounted.extends.trans h.extension, h.state, h.level, h.marked, h.reason, h.waiting, h.units,
    fun M hM => h.sound M (hcounted.sound hM),
    fun log haccounted => h.accounted log (hcounted.accounted haccounted), h.added⟩

theorem Forgone.exhausted {fault : Fault} (h : ctx.Forgone target fault ctx' late) :
    ctx.Exhausted fault ctx' := by
  obtain ⟨_, before, hreturned, _, hrefused⟩ := h
  exact ⟨hrefused.toStorageExhausted, fun M hM => hrefused.similar.sound (hreturned.sound hM)⟩

theorem Exhausted.of_sound {fault : Fault} (h : ctx'.Exhausted fault ctx'')
    (hsound : ∀ M, ctx.Sound M → ctx'.Sound M) : ctx.Exhausted fault ctx'' :=
  ⟨h.toStorageExhausted, fun M hM => h.sound M (hsound M hM)⟩

theorem analyse_withConflict (ctx : Context ρ) (key : ClauseKey) :
    ctx.withConflict.analyse key = ctx.analyse key := by
  have hresolve : ∀ level budget clause,
      ctx.withConflict.resolveWithin level budget clause = ctx.resolveWithin level budget clause := by
    intro level budget
    induction budget with
    | zero => exact fun _ => rfl
    | succ budget ih =>
      intro clause
      unfold resolveWithin
      simp only [ih]
      rfl
  unfold analyse
  simp only [hresolve]
  rfl

theorem Similar.inConflict (h : ctx.Similar ctx') (hconflict : ctx.InConflict key late) :
    ctx'.InConflict key late := by
  obtain ⟨hfails, hguarded⟩ := hconflict
  refine ⟨?_, h.guarded ?_⟩
  · rw [h.clauses, h.trail]
    exact hfails
  · rw [h.trail]
    exact hguarded

theorem InConflict.sound_unsatisfiable (hconflict : ctx.InConflict key late)
    (hlevel : ctx.trail.level = 0) {M : (Atom → Bool) → Prop} (hsound : ctx.Sound M) :
    Sound M { ctx with state := .unsatisfiable } := by
  refine ⟨hsound.justified, hsound.entailed, fun _ => ?_⟩
  obtain ⟨watched, hget, hfails, _⟩ := hconflict.fails
  refine hsound.no_model (hsound.entailed key _ (ClauseStore.has_of_get? hget)) ?_
  intro literal hmem
  obtain ⟨level, hmark⟩ := hfails literal hmem
  have hground : level = 0 := Nat.le_zero.1 (hlevel ▸ level_le hmark)
  rwa [hground] at hmark

/-- What a fault in an analysis shows: some literal was not justified at the start, and where the
fault left the search there is one as well. -/
structure Stuck (ctx ctx' : Context ρ) : Prop where
  before : ¬ ctx.Justified
  after : ¬ ctx'.Justified

theorem Justified.sound (h : ctx.Justified) : ctx.Sound fun _ => False :=
  ⟨h, fun _ _ _ _ => False.elim, fun _ _ => id⟩

theorem Stuck.of_justified (h : ctx'.Stuck ctx'') (hjustified : ctx.Justified → ctx'.Justified) :
    ctx.Stuck ctx'' := ⟨fun hbefore => h.before (hjustified hbefore), h.after⟩

/-- What learning from a conflict comes to: on the ground the clauses are refuted, and above it the
clause of the analysis is learnt. -/
def Lesson (ctx : Context ρ) (key : ClauseKey) (late : Prop) :
    Option (Literal × Nat) → Context ρ → Prop
  | none, ctx' => ctx.trail.level = 0 ∧ ctx' = { ctx.withConflict with state := .unsatisfiable }
  | some (asserted, target), ctx' => ∃ learnt, ctx.analyse key = .ok (.learnt learnt) ∧
      learnt.asserted = asserted ∧ learnt.level = target ∧ 0 < ctx.trail.level ∧
        ctx.Learnt learnt.clause asserted target ctx' late

/-- Learning fails only if some literal of the trail is not justified, or if no number is left for
the clause. -/
theorem learn_lesson (hintact : ctx.Intact) (hconflict : ctx.InConflict key late) :
    Ends (learn key) ctx (ctx.Lesson key late) fun fault ctx' =>
      ctx.Stuck ctx' ∨ ∃ target, ctx.withConflict.Forgone target fault ctx' late := by
  have hcounted := similar_withConflict hintact.agrees.coherent
  have hintact' := hcounted.intact hintact
  have hconflict' := hcounted.inConflict hconflict
  simp only [learn, countConflict, ends_bind, ends_modify, ends_get]
  rw [← withConflict, analyse_withConflict]
  by_cases hlevel : ctx.trail.level = 0
  · rw [analyse_ground hlevel]
    exact ⟨hlevel, rfl⟩
  · have hanalyse := analyse_spec hintact hconflict (Nat.pos_of_ne_zero hlevel)
    split
    · rename_i fault heq
      rw [heq] at hanalyse
      -- the analysis only fails where a literal is not justified
      exact Or.inl ⟨hanalyse, fun hjustified => hanalyse hjustified⟩
    · rename_i heq
      rw [heq] at hanalyse
      exact hanalyse.elim
    · rename_i clause asserted target heq
      rw [heq] at hanalyse
      obtain ⟨hassertable, _⟩ := hanalyse
      simp only [ends_bind, ends_discard, ends_get, ends_pure]
      refine ends_mono (backtrack_spec hintact' hassertable.withConflict hconflict'.guarded
        fun _ _ _ hnewest => hassertable.lt_of_newest hintact.agrees hnewest) ?_ fun _ _ hforgone =>
          Or.inr ⟨target, hforgone.2⟩
      intro _ ctx' h
      rw [h.level]
      exact ⟨_, heq, rfl, rfl, Nat.pos_of_ne_zero hlevel,
        h.of_withConflict hintact.agrees.coherent⟩

theorem Assertable.of_analyse (hintact : ctx.Intact) (hconflict : ctx.InConflict key late)
    (hlevel : 0 < ctx.trail.level) {learnt : Asserting}
    (hanalyse : ctx.analyse key = .ok (.learnt learnt)) :
    ctx.Assertable learnt.clause learnt.asserted learnt.level ∧
      (ctx.Justified → ctx.ForcedBy learnt.clause learnt.asserted learnt.level ∧
        ∀ model, ctx.Upholds model → Satisfied model learnt.clause) := by
  have hspec := analyse_spec hintact hconflict hlevel
  rw [hanalyse] at hspec
  exact hspec

/-- A conflict above the ground is learnt from; one on the ground refutes the clauses. -/
theorem learn_ends (hintact : ctx.Intact) (hconflict : ctx.InConflict key) :
    Ends (learn key) ctx (fun result ctx' => (∀ M, ctx.Sound M → ctx'.Sound M) ∧
      match result with
      | none => ctx.Extends ctx' ∧ ctx'.state = .unsatisfiable
      | some (asserted, target) => target < ctx.trail.level ∧
          ∃ clause, ctx.Learnt clause asserted target ctx')
      fun fault ctx' => ctx.Stuck ctx' ∨ ctx.Exhausted fault ctx' := by
  have hcounted := similar_withConflict hintact.agrees.coherent
  refine ends_mono (learn_lesson hintact hconflict) ?_ fun _ _ hfails =>
    hfails.imp_right fun ⟨_, hforgone⟩ => hforgone.exhausted.of_sound fun _ => hcounted.sound
  rintro (_ | ⟨asserted, target⟩) ctx' hlesson
  · obtain ⟨hlevel, rfl⟩ := hlesson
    exact ⟨fun M hM => (hcounted.inConflict hconflict).sound_unsatisfiable hlevel
      (hcounted.sound hM), ⟨rfl, rfl, fun _ => rfl, .refl _, fun _ => id⟩, rfl⟩
  · obtain ⟨learnt, hanalyse, rfl, rfl, hlevel, h⟩ := hlesson
    obtain ⟨hassertable, hlearnt⟩ := Assertable.of_analyse hintact hconflict hlevel hanalyse
    refine ⟨fun M hM => ?_, hassertable.target_lt hintact.agrees, _, h⟩
    obtain ⟨hforced, hentailed⟩ := hlearnt hM.justified
    exact h.sound M hM hforced fun model hmodel => hentailed model (hM.upholds hmodel)

/-! ## Learning until there is no conflict -/

/-- What a search without a decision does: it returns to a level and puts literals there. -/
structure Advanced (ctx ctx' : Context ρ) : Prop where
  extension : ctx.Extends ctx'
  state : ctx'.state = ctx.state
  level : ctx'.trail.level ≤ ctx.trail.level
  marked : ∃ news : List Literal, ctx'.trail.marked =
    upTo ctx'.trail.level ctx.trail.marked ++ news.map (·, ctx'.trail.level) ∧
      (ctx'.trail.level < ctx.trail.level → news ≠ [])

structure Continued (ctx ctx' : Context ρ) : Prop extends Advanced ctx ctx' where
  sound : ∀ M, ctx.Sound M → ctx'.Sound M

theorem Advanced.of_append {news : List Literal} (hextends : ctx.Extends ctx')
    (hstate : ctx'.state = ctx.state) (hlevel : ctx'.trail.level = ctx.trail.level)
    (hmarked : ctx'.trail.marked = ctx.trail.marked ++ news.map (·, ctx.trail.level)) :
    ctx.Advanced ctx' := by
  refine ⟨hextends, hstate, Nat.le_of_eq hlevel, ⟨news, ?_, fun hlt => ?_⟩⟩
  · rw [hlevel, upTo_eq_self fun _ => level_le]
    exact hmarked
  · exact absurd hlt (by rw [hlevel]; exact Nat.lt_irrefl _)

theorem Propagated.continued {news : List Literal} (h : ctx.Propagated news ctx') :
    ctx.Continued ctx' :=
  ⟨.of_append h.extension h.state h.level h.marked, h.sound⟩

theorem Advanced.refl (ctx : Context ρ) : ctx.Advanced ctx :=
  (Propagated.refl ctx).continued.toAdvanced

theorem Advanced.trans (h : ctx.Advanced ctx') (h' : ctx'.Advanced ctx'') :
    ctx.Advanced ctx'' := by
  obtain ⟨news, hmarked, hnews⟩ := h.marked
  obtain ⟨news', hmarked', hnews'⟩ := h'.marked
  refine ⟨h.extension.trans h'.extension, h'.state.trans h.state, Nat.le_trans h'.level h.level, ?_⟩
  rw [hmarked', hmarked, upTo_append, upTo_upTo h'.level]
  rcases Nat.lt_or_eq_of_le h'.level with hlt | heq
  · -- the new literals are taken back
    exact ⟨news', by rw [upTo_map_eq_nil _ hlt, List.append_nil], fun _ => hnews' hlt⟩
  · refine ⟨news ++ news', ?_, fun hlt => ?_⟩
    · rw [upTo_map_eq_self _ (Nat.le_of_eq heq.symm), heq, List.map_append, List.append_assoc]
    · exact List.append_ne_nil_of_left_ne_nil (hnews (heq ▸ hlt)) _

theorem Continued.trans (h : ctx.Continued ctx') (h' : ctx'.Continued ctx'') :
    ctx.Continued ctx'' :=
  ⟨h.toAdvanced.trans h'.toAdvanced, fun M hM => h'.sound M (h.sound M hM)⟩

theorem Continued.fails {fault : Fault} (h : ctx.Continued ctx')
    (hfails : ctx'.Stuck ctx'' ∨ ctx'.Exhausted fault ctx'') :
    ctx.Stuck ctx'' ∨ ctx.Exhausted fault ctx'' := by
  refine hfails.imp (fun hstuck => hstuck.of_justified fun hbefore => ?_)
    fun hexhausted => hexhausted.of_sound h.sound
  exact (h.sound _ hbefore.sound).justified

def left (ctx : Context ρ) : Nat :=
  roundBudget ctx.atoms.count - rank ctx.atoms.count ctx.trail.marked

theorem Waiting.left_pos {waiting : List Literal} (h : ctx.Waiting waiting) : 0 < ctx.left :=
  Nat.sub_pos_of_lt (rank_lt_roundBudget h.intact.agrees.length_le)

theorem left_lt_of_rank_lt {waiting : List Literal} (h : ctx.Waiting waiting)
    (hextends : ctx'.Extends ctx)
    (hrank : rank ctx'.atoms.count ctx'.trail.marked < rank ctx'.atoms.count ctx.trail.marked) :
    ctx.left < ctx'.left := by
  have hpos := h.left_pos
  unfold left at *
  rw [hextends.count] at *
  omega

theorem left_lt_of_concat {waiting : List Literal} {mark : Literal × Nat} (h : ctx'.Waiting waiting)
    (hextends : ctx.Extends ctx') (hmarked : ctx'.trail.marked = ctx.trail.marked ++ [mark]) :
    ctx'.left < ctx.left := by
  refine left_lt_of_rank_lt h hextends ?_
  rw [hmarked, rank_append]
  have hpos : 0 < rank ctx.atoms.count [mark] := by
    simp only [rank, List.map_cons, List.map_nil, List.sum_cons, List.sum_nil]
    exact Nat.pow_pos (by omega)
  omega

theorem Advanced.left_lt (h : ctx.Advanced ctx') (hintact : ctx.Intact)
    {waiting : List Literal} (hwaiting : ctx'.Waiting waiting)
    (hlevel : ctx'.trail.level < ctx.trail.level) : ctx'.left < ctx.left := by
  obtain ⟨news, hmarked, hnews⟩ := h.marked
  have hlength := hintact.agrees.length_le
  have hsize := hintact.filled.level_le_size
  refine left_lt_of_rank_lt hwaiting h.extension (Context.rank_lt hlength (by omega) hmarked ?_ ?_)
  · simpa using hnews hlevel
  · intro mark hmark
    obtain ⟨_, _, rfl⟩ := List.mem_map.1 hmark
    rfl

theorem Propagated.left_le {news : List Literal} (h : ctx.Propagated news ctx') :
    ctx'.left ≤ ctx.left := by
  unfold left
  rw [h.extension.count, h.marked, rank_append]
  omega

theorem Advanced.left_le (h : ctx.Advanced ctx') (hintact : ctx.Intact)
    {waiting : List Literal} (hwaiting : ctx'.Waiting waiting) : ctx'.left ≤ ctx.left := by
  rcases Nat.lt_or_eq_of_le h.level with hlt | heq
  · exact Nat.le_of_lt (h.left_lt hintact hwaiting hlt)
  · obtain ⟨news, hmarked, _⟩ := h.marked
    unfold left
    rw [h.extension.count, hmarked, heq, upTo_eq_self fun _ => level_le, rank_append]
    omega

theorem Learnt.advanced (h : ctx.Learnt clause asserted target ctx')
    (htarget : target < ctx.trail.level) : ctx.Advanced ctx' :=
  ⟨h.extension, h.state, h.level ▸ Nat.le_of_lt htarget,
    ⟨[asserted], by rw [h.level]; exact h.marked, by simp⟩⟩

theorem Learnt.continued (h : ctx.Learnt clause asserted target ctx')
    (htarget : target < ctx.trail.level) (hsound : ∀ M, ctx.Sound M → ctx'.Sound M) :
    ctx.Continued ctx' :=
  ⟨h.advanced htarget, hsound⟩

theorem min?_append_singleton (jumps : List Nat) {level target : Nat}
    (hjumps : ∀ jump ∈ jumps, level ≤ jump) (htarget : target ≤ level) :
    (jumps ++ [target]).min? = some target := by
  rw [List.min?_eq_some_iff]
  refine ⟨by simp, fun jump hjump => ?_⟩
  rcases List.mem_append.1 hjump with hjump | hjump
  · exact Nat.le_trans htarget (hjumps jump hjump)
  · exact Nat.le_of_eq (List.mem_singleton.1 hjump).symm

/-- What came of learning: without a conflict nothing waits, and the jumps tell the level reached if
it is not the one at the start. -/
def Outcome (ctx : Context ρ) (start : Nat) (learning : Learning) (ctx' : Context ρ) : Prop :=
  match learning.consistent with
  | true => ctx.Continued ctx' ∧ ctx'.Waiting [] ∧
      learning.jumps.min? = if ctx'.trail.level = start then none else some ctx'.trail.level
  | false => ctx'.state = .unsatisfiable ∧ ∀ M, ctx.Sound M → ctx'.Sound M

theorem propagateLearningWithin_ends (start : Nat) (budget : Nat) (jumps : List Nat)
    (h : ctx.Waiting [literal]) (hstart : ctx.trail.level ≤ start)
    (hjumps : jumps.min? = if ctx.trail.level = start then none else some ctx.trail.level)
    (hbudget : ctx.left ≤ budget) :
    Ends (propagateLearningWithin jumps budget literal) ctx
      (fun learning ctx' => ctx.Outcome start learning ctx')
      fun fault ctx' => ctx.Stuck ctx' ∨ ctx.Exhausted fault ctx' := by
  -- by induction on the budget, which bounds how often the rank can still rise
  induction budget generalizing ctx jumps literal with
  | zero =>
    have := h.left_pos
    omega
  | succ budget ih =>
    simp only [propagateLearningWithin, ends_bind]
    refine ends_of_ensures (propagate_spec [] h) ?_
    rintro result ctx₁ ⟨news, hpropagated, hresult⟩
    have hcontinued := hpropagated.continued
    cases result with
    | none =>
      refine ⟨hcontinued, hresult, ?_⟩
      rw [hpropagated.level]
      exact hjumps
    | some key =>
      obtain ⟨hintact, hconflict⟩ := hresult
      simp only [ends_bind]
      refine ends_mono (learn_ends hintact hconflict) ?_ fun _ _ => hcontinued.fails
      rintro (_ | ⟨asserted, target⟩) ctx₂ ⟨hsound, hlearn⟩
      · exact ⟨hlearn.2, fun M hM => hsound M (hpropagated.sound M hM)⟩
      · obtain ⟨htarget, clause, hlearnt⟩ := hlearn
        have hlevel : ctx₂.trail.level < ctx₁.trail.level := hlearnt.level ▸ htarget
        have hcontinued' := hlearnt.continued htarget hsound
        have hleft := hpropagated.left_le
        have hleft' := hcontinued'.left_lt hintact hlearnt.waiting hlevel
        have hlevel' := hpropagated.level
        refine ends_mono (ih (jumps ++ [target]) hlearnt.waiting (by omega) ?_ (by omega)) ?_ ?_
        · have hne : ctx₂.trail.level ≠ start := by omega
          -- each jump went lower than all jumps before it
          have hleast : ∀ jump ∈ jumps, ctx.trail.level ≤ jump := by
            intro jump hjump
            split at hjumps
            · rw [List.min?_eq_none_iff.1 hjumps] at hjump
              exact absurd hjump List.not_mem_nil
            · exact (List.min?_eq_some_iff.1 hjumps).2 jump hjump
          rw [if_neg hne, hlearnt.level]
          exact min?_append_singleton jumps hleast (by omega)
        · intro learning ctx' houtcome
          unfold Outcome at houtcome ⊢
          split at houtcome
          · obtain ⟨hrest, hwaiting, hmin⟩ := houtcome
            exact ⟨(hcontinued.trans hcontinued').trans hrest, hwaiting, hmin⟩
          · obtain ⟨hstate, hrest⟩ := houtcome
            exact ⟨hstate, fun M hM => hrest M (hsound M (hpropagated.sound M hM))⟩
        · exact fun _ _ => (hcontinued.trans hcontinued').fails

theorem left_le_roundBudget (ctx : Context ρ) : ctx.left ≤ roundBudget ctx.atoms.count :=
  Nat.sub_le _ _

theorem propagateLearning_ends (start : Nat) (jumps : List Nat) (h : ctx.Waiting [literal])
    (hstart : ctx.trail.level ≤ start)
    (hjumps : jumps.min? = if ctx.trail.level = start then none else some ctx.trail.level) :
    Ends (propagateLearning literal jumps) ctx
      (fun learning ctx' => ctx.Outcome start learning ctx')
      fun fault ctx' => ctx.Stuck ctx' ∨ ctx.Exhausted fault ctx' := by
  simp only [propagateLearning, ends_bind, ends_get]
  exact propagateLearningWithin_ends start _ jumps h hstart hjumps (left_le_roundBudget ctx)

end Satisfiability.Context
