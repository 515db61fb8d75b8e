import Satisfiability.Proofs.Context.Asserting

/-!
# Levels undone

A return to a level takes back all that was done since the next level was opened (`Opened`): the
trail, the values of all atoms and the whole graph are as they were just before (`Restored`), though
clauses were learnt in between, those that serve as reasons were turned and edges cross the levels.
What the moves of a search leave alone below their level (`AlikeUpTo`) fixes the literals and their
reasons. Placements follow from the literals, parents from the reasons and children from the
parents.
-/

namespace Satisfiability.Context

open Search Step Trail

variable {ρ : Type} {ctx ctx' ctx'' before : Context ρ} {log log' : List (Source × Clause)}
  {clause : Clause} {literal : Literal} {target : Nat} {late : Prop}

/-- Up to a level the contexts have the same literals with the same reasons, and the second one has
the clauses of the first. -/
structure AlikeUpTo (ctx : Context ρ) (target : Nat) (ctx' : Context ρ) : Prop where
  marked : upTo target ctx'.trail.marked = upTo target ctx.trail.marked
  reason : ∀ mark ∈ upTo target ctx.trail.marked,
    ctx'.graph.reason? mark.1.atom = ctx.graph.reason? mark.1.atom
  grows : ctx.clauses.Grows ctx'.clauses

theorem AlikeUpTo.trans (h : ctx.AlikeUpTo target ctx') (h' : ctx'.AlikeUpTo target ctx'') :
    ctx.AlikeUpTo target ctx'' := by
  refine ⟨h'.marked.trans h.marked, fun mark hmark => ?_, h.grows.trans h'.grows⟩
  rw [h'.reason mark (h.marked ▸ hmark), h.reason mark hmark]

theorem alikeUpTo_withState (ctx : Context ρ) (target : Nat) (state : SearchState) :
    ctx.AlikeUpTo target (ctx.withState state) := ⟨rfl, fun _ _ => rfl, .refl _⟩

theorem Similar.alikeUpTo (h : ctx.Similar ctx') (target : Nat) : ctx.AlikeUpTo target ctx' :=
  ⟨by rw [h.trail], fun _ _ => by rw [h.graph], h.extends.grows⟩

theorem Widened.alikeUpTo (h : ctx.Widened ctx') (target : Nat) : ctx.AlikeUpTo target ctx' :=
  ⟨by rw [h.trail], fun mark _ => h.reason mark.1.atom, by rw [h.clauses]; exact .refl _⟩

theorem Propagated.alikeUpTo {news : List Literal} (h : ctx.Propagated news ctx')
    (htarget : target < ctx.trail.level) : ctx.AlikeUpTo target ctx' := by
  refine ⟨?_, fun mark hmark => h.reason mark (mem_upTo.1 hmark).1, h.extension.grows⟩
  rw [h.marked, upTo_append, upTo_map_eq_nil _ htarget, List.append_nil]

theorem Decided.alikeUpTo (h : ctx.Decided literal ctx' late) (htarget : target ≤ ctx.trail.level) :
    ctx.AlikeUpTo target ctx' := by
  refine ⟨?_, fun mark hmark => h.reason mark (mem_upTo.1 hmark).1, h.extension.grows⟩
  have hnil := upTo_map_eq_nil [literal] (Nat.lt_succ_of_le htarget)
  rw [h.marked, upTo_append, show upTo target [(literal, ctx.trail.level + 1)] = [] from hnil,
    List.append_nil]

theorem Learnt.alikeUpTo {asserted : Literal} {level : Nat}
    (h : ctx.Learnt clause asserted level ctx' late) (htarget : target < level) :
    ctx.AlikeUpTo target ctx' := by
  have hle := Nat.le_of_lt htarget
  refine ⟨?_, fun mark hmark => h.reason mark ?_, h.extension.grows⟩
  · have hnil := upTo_map_eq_nil [asserted] htarget
    rw [h.marked, upTo_append, upTo_upTo hle, show upTo target [(asserted, level)] = [] from hnil,
      List.append_nil]
  · obtain ⟨hmem, hmark⟩ := mem_upTo.1 hmark
    exact mem_upTo.2 ⟨hmem, Nat.le_trans hmark hle⟩

theorem Returned.alikeUpTo {level : Nat} (h : ctx.Returned level ctx') (htarget : target ≤ level) :
    ctx.AlikeUpTo target ctx' := by
  refine ⟨?_, fun mark hmark => h.reason mark ?_, h.extends.grows⟩
  · rw [h.marked, upTo_upTo htarget]
  · obtain ⟨hmem, hmark⟩ := mem_upTo.1 hmark
    rw [h.marked]
    exact mem_upTo.2 ⟨hmem, Nat.le_trans hmark htarget⟩

/-! ## Moves between levels -/

section moves

variable [RandomSource ρ] {point point' : Phase × Context ρ}

/-- A move opens a level for a decision, or it opens none and leaves alone what is below its level.
-/
theorem Effect.opens_or_alike (h : Effect point point') :
    (∃ before literal, point.1 = .decide ∧ point'.1 = .propagate literal ∧
        OpensLevel point.2 before literal point'.2) ∨
      (point'.2.trail.level ≤ point.2.trail.level ∧
        ∀ target < point'.2.trail.level, point.2.AlikeUpTo target point'.2) := by
  cases h with
  | similar hsimilar =>
    exact Or.inr ⟨Nat.le_of_eq (congrArg Trail.level hsimilar.trail), fun target _ =>
      (hsimilar.alikeUpTo target).trans (alikeUpTo_withState _ target _)⟩
  | propagated hnews =>
    have hlevel := hnews.level
    exact Or.inr ⟨Nat.le_of_eq hlevel, fun target htarget =>
      (hnews.alikeUpTo (hlevel ▸ htarget)).trans (alikeUpTo_withState _ target _)⟩
  | opened hopens => exact Or.inl ⟨_, _, rfl, rfl, hopens⟩
  | learnt hlower _ _ hlearnt =>
    have hlevel := hlearnt.level
    exact Or.inr ⟨hlevel ▸ Nat.le_of_lt hlower, fun target htarget =>
      hlearnt.alikeUpTo (hlevel ▸ htarget)⟩

end moves

/-! ## When a level was opened -/

/-- The context was there when the level above some level was opened for a decision, and that level
has been open ever since. -/
inductive Opened [RandomSource ρ] (target : Nat) (before : Context ρ) : Phase × Context ρ → Prop
  | decided {log : List (Source × Clause)} {ctx ctx' : Context ρ} {literal : Literal}
    (h : Session log (.decide, ctx))
    (hrun : decision.run.run ctx.counted = (.ok (some literal), before))
    (hrecord : (do openLevel; record literal none : Step (Context ρ) Unit).run.run before =
      (.ok (), ctx'))
    (hlevel : before.trail.level = target) : Opened target before (.propagate literal, ctx')
  | move {point point' : Phase × Context ρ} (h : Opened target before point)
    (hmove : Move point point') (hlevel : target < point'.2.trail.level) :
    Opened target before point'
  | atom {ctx ctx' : Context ρ} {name : String} {atom : Atom} (h : Opened target before (.start, ctx))
    (hrun : (freshAtom name).run.run ctx = (.ok atom, ctx')) : Opened target before (.start, ctx')
  | refused {ctx ctx' : Context ρ} {clause : Clause} {fault : Fault}
    (h : Opened target before (.start, ctx)) (hatoms : ∀ literal ∈ clause, literal.atom < ctx.atoms.count)
    (hrun : (addClause clause).run.run ctx = (.error fault, ctx')) : Opened target before (.start, ctx')
  | broken {point : Phase × Context ρ} {fault : Fault} {ctx' : Context ρ}
    (h : Opened target before point) (hbreaks : Breaks point fault ctx')
    (hlevel : target < ctx'.trail.level) : Opened target before (.start, ctx')
  | again {ctx : Context ρ} {report : Report} (h : Opened target before (.finished report, ctx)) :
    Opened target before (.start, ctx)

structure Since (target : Nat) (before ctx : Context ρ) : Prop where
  level : before.trail.level = target
  above : target < ctx.trail.level
  agrees : before.Agrees
  accounted : ∃ log, before.Accounted log
  alike : before.AlikeUpTo target ctx

theorem Since.similar (h : Since target before ctx) (hsimilar : ctx.Similar ctx') :
    Since target before ctx' :=
  ⟨h.level, hsimilar.trail ▸ h.above, h.agrees, h.accounted,
    h.alike.trans (hsimilar.alikeUpTo target)⟩

section opened

variable [RandomSource ρ] {point : Phase × Context ρ}

theorem Opened.session (h : Opened target before point) : ∃ log, Session log point := by
  induction h with
  | decided h hrun hrecord => exact ⟨_, h.move (.decided hrun hrecord)⟩
  | move _ hmove _ ih =>
    obtain ⟨log, hsession⟩ := ih
    exact ⟨_, hsession.move hmove⟩
  | atom _ hrun ih =>
    obtain ⟨log, hsession⟩ := ih
    exact ⟨_, hsession.atom hrun⟩
  | refused _ hatoms hrun ih =>
    obtain ⟨log, hsession⟩ := ih
    exact ⟨_, hsession.refused hatoms hrun⟩
  | broken _ hbreaks _ ih =>
    obtain ⟨log, hsession⟩ := ih
    exact ⟨_, hsession.broken hbreaks⟩
  | again _ ih =>
    obtain ⟨log, hsession⟩ := ih
    exact ⟨_, hsession.again⟩

variable [LawfulRandomSource ρ]

theorem Opened.since (h : Opened target before point) : Since target before point.2 := by
  induction h with
  | @decided log ctx ctx' literal h hrun hrecord hlevel =>
    have hkept := h.kept
    have hopens := hkept.opens hrun hrecord
    refine ⟨hlevel, ?_, hopens.similar.agrees hkept.intact.agrees,
      ⟨log, hopens.similar.accounted hkept.accounted⟩,
      hopens.decided.alikeUpTo (Nat.le_of_eq hlevel.symm)⟩
    rw [hopens.decided.level, hlevel]
    exact Nat.lt_succ_self target
  | @move point point' h hmove hlevel ih =>
    obtain ⟨log, hsession⟩ := h.session
    refine ⟨ih.level, hlevel, ih.agrees, ih.accounted, ih.alike.trans ?_⟩
    -- a move that opens a level opens one above; any other keeps all levels that stay open
    rcases (hsession.kept.effect hmove).opens_or_alike with ⟨before', literal, _, _, hopens⟩ | ⟨_, halike⟩
    · refine (hopens.similar.alikeUpTo target).trans (hopens.decided.alikeUpTo ?_)
      rw [hopens.similar.trail]
      exact Nat.le_of_lt ih.above
    · exact halike target hlevel
  | @atom ctx ctx' name atom h hrun ih =>
    obtain ⟨log, hsession⟩ := h.session
    obtain ⟨_, hwidened⟩ := ends_ok (freshAtom_spec hsession.kept.intact.agrees.coherent name) hrun
    refine ⟨ih.level, ?_, ih.agrees, ih.accounted, ih.alike.trans (hwidened.alikeUpTo target)⟩
    rw [hwidened.trail]
    exact ih.above
  | refused h hatoms hrun ih =>
    obtain ⟨log, hsession⟩ := h.session
    exact ih.similar (hsession.kept.similar_refused hatoms hrun)
  | @broken point fault ctx' h hbreaks hlevel ih =>
    obtain ⟨log, hsession⟩ := h.session
    obtain ⟨phase, ctx⟩ := point
    obtain ⟨key, level, rfl, _, between, hreturned, _, hrefused⟩ := hsession.kept.forgone hbreaks
    have hcounted := similar_withConflict hsession.kept.intact.agrees.coherent
    -- a return that broke off ended above the level opened, so what is below is untouched
    have hle : target ≤ level := by
      rw [hrefused.similar.trail, hreturned.level] at hlevel
      exact Nat.le_of_lt hlevel
    refine ⟨ih.level, hlevel, ih.agrees, ih.accounted, ih.alike.trans ?_⟩
    exact ((hcounted.alikeUpTo target).trans (hreturned.alikeUpTo hle)).trans
      (hrefused.similar.alikeUpTo target)
  | again _ ih => exact ih

/-- For each level below that of a context there is one that was there when the next level was
opened. -/
theorem Session.exists_opened (h : Session log point) (htarget : target < point.2.trail.level) :
    ∃ before, Opened target before point := by
  induction h with
  | empty => exact absurd htarget (Nat.not_lt_zero _)
  | @atom log ctx ctx' name atom h hrun ih =>
    obtain ⟨_, hwidened⟩ := ends_ok (freshAtom_spec h.kept.intact.agrees.coherent name) hrun
    rw [show ctx'.trail = ctx.trail from hwidened.trail] at htarget
    obtain ⟨before, hopened⟩ := ih htarget
    exact ⟨before, hopened.atom hrun⟩
  | @clause log ctx ctx' clause result h hatoms hrun ih =>
    -- clauses are added on the ground only, and leave the search there
    exact absurd htarget (by rw [h.kept.level_addClause hatoms hrun]; exact Nat.not_lt_zero _)
  | @move log point point' h hmove ih =>
    by_cases hbefore : target < point.2.trail.level
    · obtain ⟨before, hopened⟩ := ih hbefore
      exact ⟨before, hopened.move hmove htarget⟩
    · obtain ⟨phase, ctx⟩ := point
      obtain ⟨phase', ctx'⟩ := point'
      rcases (h.kept.effect hmove).opens_or_alike with ⟨before, literal, rfl, rfl, hopens⟩ | ⟨hle, _⟩
      · refine ⟨before, .decided h hopens.decision hopens.record ?_⟩
        have hlevel := hopens.decided.level
        have hsame := congrArg Trail.level hopens.similar.trail
        simp only at hbefore htarget hlevel hsame
        omega
      · exact absurd (Nat.lt_of_lt_of_le htarget hle) hbefore
  | again _ ih =>
    obtain ⟨before, hopened⟩ := ih htarget
    exact ⟨before, hopened.again⟩
  | @refused log ctx ctx' clause fault h hatoms hrun ih =>
    have hsimilar := h.kept.similar_refused hatoms hrun
    rw [show ctx'.trail = ctx.trail from hsimilar.trail] at htarget
    obtain ⟨before, hopened⟩ := ih htarget
    exact ⟨before, hopened.refused hatoms hrun⟩
  | @broken log point fault ctx' h hbreaks ih =>
    obtain ⟨phase, ctx⟩ := point
    obtain ⟨key, level, rfl, hlower, _, hreturned, _, hrefused⟩ := h.kept.forgone hbreaks
    have hlevel : ctx'.trail.level = level := by rw [hrefused.similar.trail, hreturned.level]
    have hbefore : target < ctx.trail.level :=
      Nat.lt_trans (Nat.lt_of_lt_of_eq htarget hlevel) hlower
    obtain ⟨before, hopened⟩ := ih hbefore
    exact ⟨before, hopened.broken hbreaks htarget⟩

end opened

/-! ## Back where the level was opened -/

structure Restored (ctx ctx' : Context ρ) : Prop where
  trail : ctx'.trail = ctx.trail
  placement : ∀ atom, ctx'.atoms.placement? atom = ctx.atoms.placement? atom
  node : ∀ atom, ctx'.graph.node atom = ctx.graph.node atom

theorem restored_of_reasons (hagrees : ctx.Agrees) (hagrees' : ctx'.Agrees)
    (haccounted : ctx.Accounted log) (haccounted' : ctx'.Accounted log')
    (htrail : ctx'.trail = ctx.trail) (hgrows : ctx.clauses.Grows ctx'.clauses)
    (hreason : ∀ mark ∈ ctx.trail.marked,
      ctx'.graph.reason? mark.1.atom = ctx.graph.reason? mark.1.atom) : ctx.Restored ctx' := by
  have hplacement : ∀ atom, ctx'.atoms.placement? atom = ctx.atoms.placement? atom := by
    intro atom
    refine Option.ext fun placement => ?_
    rw [hagrees.placed, hagrees'.placed, htrail]
  have hreasons : ∀ atom, ctx'.graph.reason? atom = ctx.graph.reason? atom := by
    intro atom
    rcases hvalue : ctx.atoms.placement? atom with _ | placement
    · rw [haccounted.linked.bare atom hvalue,
        haccounted'.linked.bare atom ((hplacement atom).trans hvalue)]
    · exact hreason _ (List.mem_of_getElem? ((hagrees.placed _ _).1 hvalue))
  have hparents : ∀ atom, (ctx'.graph.node atom).parents = (ctx.graph.node atom).parents := by
    intro atom
    refine IndexSet.ext_mem fun parent => ?_
    -- a reason may have been turned since, but has the same atoms
    rw [haccounted'.parents, haccounted.parents, hreasons,
      mem_reasonAtoms_of_grows hgrows (haccounted.present atom)]
  refine ⟨htrail, hplacement, fun atom => ImplicationNode.ext (hreasons atom) (hparents atom) ?_⟩
  refine IndexSet.ext_mem fun child => ?_
  rw [haccounted'.linked.inverse, haccounted.linked.inverse, hparents]

/-- What the return to a level leaves is what was there when the next one was opened. -/
theorem Since.restored (h : Since target before ctx) (haccounted : ctx.Accounted log)
    (hreturned : ctx.Returned target ctx') : before.Restored ctx' := by
  obtain ⟨log', hbefore⟩ := h.accounted
  have halike := h.alike.trans (hreturned.alikeUpTo (Nat.le_refl target))
  have hall : upTo target before.trail.marked = before.trail.marked :=
    upTo_eq_self fun mark hmark => h.level ▸ level_le hmark
  have hmarked : ctx'.trail.marked = before.trail.marked := by
    rw [← hall, ← halike.marked, hreturned.marked, upTo_upTo (Nat.le_refl target)]
  refine restored_of_reasons h.agrees hreturned.agrees hbefore (hreturned.accounted haccounted)
    (eq_of_marked (hreturned.level.trans h.level.symm) hmarked) halike.grows fun mark hmark => ?_
  exact halike.reason mark (hall.symm ▸ hmark)

theorem run_backjump_of_le (h : ctx.trail.level ≤ target) :
    (backjump target).run.run ctx = (.ok (), ctx) := by
  have hidle : Ensures (backjump target) ctx (fun _ ctx' => ctx' = ctx) never := by
    rw [backjump, ensures_bind, ensures_get, Nat.sub_eq_zero_of_le h]
    rfl
  obtain ⟨_, _, hrun, rfl⟩ := run_of_ensures hidle
  exact hrun

section session

variable [RandomSource ρ] [LawfulRandomSource ρ]

/-- From each point of a session, whatever was counted, a backjump to a lower level takes the trail,
the values and the graph back to what they were when the next level was opened, puts the atoms that
lose their values on the heap and leaves clauses, watches and names alone. A backjump to the level
itself or a higher one changes nothing. -/
theorem Session.backjump_undoes {phase : Phase} (h : Session log (phase, ctx)) (counters : Counters)
    (target : Nat) :
    (ctx.trail.level ≤ target →
      (backjump target).run.run { ctx with counters } = (.ok (), { ctx with counters })) ∧
    (target < ctx.trail.level → (∃ before, Opened target before (phase, ctx)) ∧
      ∃ ctx', (backjump target).run.run { ctx with counters } = (.ok (), ctx') ∧
        (∀ before, Opened target before (phase, ctx) → before.Restored ctx') ∧
        SameClauses { ctx with counters } ctx' ∧
        ∀ atom, ctx.atoms.placement? atom ≠ none → ctx'.atoms.placement? atom = none →
          ctx'.atoms.activities.isActive atom = true) := by
  have hkept := h.kept
  have hsimilar : ctx.Similar { ctx with counters } :=
    ⟨rfl, rfl, rfl, rfl, rfl, rfl, hkept.intact.agrees.coherent, .refl _⟩
  refine ⟨fun hlevel => ?_, fun hlevel => ⟨h.exists_opened hlevel, ?_⟩⟩
  · rw [← hsimilar.trail] at hlevel
    exact run_backjump_of_le hlevel
  obtain ⟨_, ctx', hrun, hreturned⟩ := run_of_ensures
    (backjump_spec (hsimilar.agrees hkept.intact.agrees) (Nat.le_of_lt hlevel))
  refine ⟨ctx', hrun, fun before hopened => ?_, hreturned.same, fun atom hvalued hnone => ?_⟩
  · have hsince : Since target before ctx := hopened.since
    exact (hsince.similar hsimilar).restored (hsimilar.accounted hkept.accounted) hreturned
  · obtain ⟨placement, hplacement⟩ := Option.ne_none_iff_exists'.1 hvalued
    refine hreturned.agrees.coherent.active atom ?_ hnone
    rw [hreturned.same.count]
    exact AtomTable.lt_count_of_placement hplacement

end session

theorem Session.backjump_undoes_clash :
    (∃ log, Session log (.learn (.stored .problem 5), Diamond.clash)) ∧
      0 < Diamond.clash.trail.level ∧
        ∃ before ctx', Opened 0 before (.learn (.stored .problem 5), Diamond.clash) ∧
          (backjump 0).run.run Diamond.clash.withConflict = (.ok (), ctx') ∧ before.Restored ctx' := by
  obtain ⟨log, hsession⟩ := Diamond.session
  have hclash : Session log (.learn (.stored .problem 5), Diamond.clash) :=
    (Calls.propagated hsession).conflict Diamond.run_propagate Diamond.level_clash_pos
  obtain ⟨⟨before, hopened⟩, ctx', hrun, hrestored, _⟩ :=
    (hclash.backjump_undoes Diamond.clash.withConflict.counters 0).2 Diamond.level_clash_pos
  exact ⟨⟨log, hclash⟩, Diamond.level_clash_pos, before, ctx', hopened, hrun,
    hrestored before hopened⟩

end Satisfiability.Context
