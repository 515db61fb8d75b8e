import Satisfiability.Proofs.Context.Steering

/-!
# Levels told

A propagation with all that is learnt may return to lower levels any number of times, and each time
the new level is told. These levels fall, the last of them is the level in the end, and no literal
up to it is ever cleared (`Faithful`). That is so wherever a context in order is searched on
(`Course.faithful`) and where something is learnt from a clause (`Resolves.faithful`).
-/

namespace Satisfiability.Context

open Search Step Trail

variable {ρ : Type} {ctx ctx' last : Context ρ} {log : List (Source × Clause)} {phase : Phase}
  {passed told : List (Context ρ)} {point point' : Phase × Context ρ} {jumps : List Nat}
  {clause : Clause} {top : Nat}

/-- What is told of a call that leads from one context over those passed to another one. -/
structure Faithful (ctx : Context ρ) (jumps : List Nat) (passed told : List (Context ρ))
    (last : Context ρ) : Prop where
  /-- Each level told is that of the context at the time. -/
  told : jumps = told.map (·.trail.level)
  falling : (ctx.trail.level :: jumps).Pairwise (· > ·)
  level : last.trail.level = jumps.getLast?.getD ctx.trail.level
  /-- Each literal cleared on the way was on a level above that. -/
  cleared : (ctx :: passed).IsChain fun before after =>
    ∀ mark ∈ before.trail.marked, mark ∉ after.trail.marked → last.trail.level < mark.2
  reached : (ctx :: passed).getLast? = some last

theorem Faithful.level_le (h : ctx.Faithful jumps passed told last) :
    last.trail.level ≤ ctx.trail.level := by
  rw [h.level]
  rcases hlast : jumps.getLast? with _ | jump
  · exact Nat.le_refl _
  · exact Nat.le_of_lt ((List.pairwise_cons.1 h.falling).1 jump (List.mem_of_getLast? hlast))

theorem Faithful.nil (ctx : Context ρ) : ctx.Faithful [] [] [] ctx :=
  ⟨rfl, List.pairwise_singleton .., rfl, .singleton _, rfl⟩

theorem Faithful.stay (h : ctx'.Faithful jumps passed told last)
    (hlevel : ctx'.trail.level = ctx.trail.level) (hmarked : ctx.trail.marked ⊆ ctx'.trail.marked) :
    ctx.Faithful jumps (ctx' :: passed) told last := by
  refine ⟨h.told, hlevel ▸ h.falling, hlevel ▸ h.level, .cons_cons (fun mark hmem hlost => ?_) h.cleared,
    ?_⟩
  · exact absurd (hmarked hmem) hlost
  · rw [List.getLast?_cons_cons]
    exact h.reached

theorem Faithful.fall (h : ctx'.Faithful jumps passed told last)
    (hlevel : ctx'.trail.level < ctx.trail.level)
    (hmarked : upTo ctx'.trail.level ctx.trail.marked ⊆ ctx'.trail.marked) :
    ctx.Faithful (ctx'.trail.level :: jumps) (ctx' :: passed) (ctx' :: told) last := by
  refine ⟨congrArg _ h.told, List.pairwise_cons.2 ⟨fun jump hjump => ?_, h.falling⟩, ?_,
    .cons_cons (fun mark hmem hlost => ?_) h.cleared, ?_⟩
  · rcases List.mem_cons.1 hjump with rfl | hjump
    · exact hlevel
    · exact Nat.lt_trans ((List.pairwise_cons.1 h.falling).1 jump hjump) hlevel
  · rw [h.level, List.getLast?_cons, Option.getD_some]
  · refine Nat.lt_of_le_of_lt h.level_le (Nat.lt_of_not_le fun hle => hlost ?_)
    exact hmarked (mem_upTo.2 ⟨hmem, hle⟩)
  · rw [List.getLast?_cons_cons]
    exact h.reached

variable [RandomSource ρ] [LawfulRandomSource ρ]

/-- A propagation with all that is learnt tells faithfully what becomes of the levels. -/
theorem Course.faithful (h : Course point passed told point') (hkept : Kept log point) :
    point.2.Faithful (told.map (·.trail.level)) passed told point'.2 := by
  -- by induction on the course, as each point of it is in order
  induction h generalizing log with
  | propagated hrun =>
    obtain ⟨news, hpropagated, _⟩ := ensures_ok (propagate_spec [] hkept.poised.2) hrun
    exact (Faithful.nil _).stay hpropagated.level (hpropagated.marked ▸ List.subset_append_left _ _)
  | conflict hrun _ ih =>
    obtain ⟨news, hpropagated, _⟩ := ensures_ok (propagate_spec [] hkept.poised.2) hrun
    exact (ih (hkept.move (.conflict hrun))).stay hpropagated.level
      (hpropagated.marked ▸ List.subset_append_left _ _)
  | learnt hrun _ ih =>
    have hconflict := hkept.poised.2
    obtain ⟨learnt, hanalyse, rfl, rfl, hlevel, hlearnt⟩ :=
      ends_ok (learn_lesson hkept.intact hconflict) hrun
    obtain ⟨hassertable, _⟩ := Assertable.of_analyse hkept.intact hconflict hlevel hanalyse
    have hlower := hassertable.target_lt hkept.intact.agrees
    exact (ih (hkept.move (.learnt hrun))).fall (hlearnt.level ▸ hlower)
      (hlearnt.level ▸ hlearnt.marked ▸ List.subset_append_left _ _)
  | refuted hrun =>
    obtain ⟨_, rfl⟩ := ends_ok (learn_lesson hkept.intact hkept.poised.2) hrun
    exact (Faithful.nil _).stay rfl (List.Subset.refl _)

omit [RandomSource ρ] [LawfulRandomSource ρ] in
/-- What is told where learning begins is faithful if what is told from there on is. -/
theorem FalseUpTo.faithful {told' passed' : List (Context ρ)} (hfalse : ctx.FalseUpTo clause top)
    (h : Kept log (phase, ctx)) (hsettled : ctx.Settled) (htop : 0 < top)
    (hbegins : ctx.Begins clause top passed told point)
    (hrest : point.2.Faithful (told'.map (·.trail.level)) passed' told' last) :
    ctx.Faithful ((told ++ told').map (·.trail.level)) (passed ++ passed') (told ++ told') last := by
  cases hbegins with
  | forced hsingle hlevel hrun =>
    obtain ⟨hassertable, _, hlearnt⟩ := hfalse.learnt h hsettled htop hsingle hlevel hrun
    exact hrest.fall (hlearnt.level ▸ hassertable.target_lt h.intact.agrees)
      (hlearnt.level ▸ hlearnt.marked ▸ List.subset_append_left _ _)
  | stored hseveral hnewest hrun =>
    have hagrees := h.intact.agrees
    obtain rfl : top = ctx.trail.level := Nat.le_antisymm hfalse.le_level (Nat.le_of_not_lt hnewest)
    obtain ⟨hstored, _⟩ := hfalse.stored h hsettled hseveral (.refl hagrees) hrun
    exact hrest.stay (congrArg Trail.level hstored.trail) (hstored.trail ▸ List.Subset.refl _)
  | @returned ctx₁ ctx₂ _ hseveral hlower hreturn hrun =>
    have hreturned := ensures_ok (backjump_spec h.intact.agrees (Nat.le_of_lt hlower)) hreturn
    obtain ⟨hstored, _⟩ := hfalse.stored h hsettled hseveral hreturned hrun
    have hstay : ctx₁.Faithful _ (ctx₂ :: passed') told' last :=
      hrest.stay (congrArg Trail.level hstored.trail) (hstored.trail ▸ List.Subset.refl _)
    exact hstay.fall (hreturned.level ▸ hlower)
      (hreturned.level ▸ hreturned.marked ▸ List.Subset.refl _)

/-- Learning from a clause tells faithfully what becomes of the levels. -/
theorem Resolves.faithful (hresolves : ctx.Resolves clause passed told point)
    (h : Kept log (phase, ctx)) (hfree : phase.Free) :
    ctx.Faithful (told.map (·.trail.level)) passed told point.2 := by
  cases hresolves with
  | refuted =>
    have hnil : (ctx.withState .unsatisfiable).Faithful [] [] [] (ctx.withState .unsatisfiable) :=
      .nil _
    exact hnil.stay rfl (List.Subset.refl _)
  | learnt hcanonical hlevels htop hbegins hcourse =>
    obtain ⟨hnodup, _⟩ := Clause.canonical?_eq_some hcanonical
    have hfalse := falseUpTo_of_falseLevels? h.intact.agrees hnodup hlevels htop
    have hpos := Nat.pos_of_ne_zero htop
    have hsettled := (h.atRest hfree).settled (Nat.lt_of_lt_of_le hpos hfalse.le_level)
    obtain ⟨hkept, _, _⟩ := hfalse.begins h hsettled hpos hbegins
    exact hfalse.faithful h hsettled hpos hbegins (hcourse.faithful hkept)

/-- While there are numbers for what is learnt, an operation succeeds by a course of some kind, and
what it tells of it is faithful. -/
def Tells (ctx : Context ρ) (operation : Step (Context ρ) Learning)
    (course : (passed told : List (Context ρ)) → Phase × Context ρ → Prop) : Prop :=
  Ends operation ctx (fun learning ctx' => ∃ passed told, course passed told (learning.point ctx') ∧
    ctx.Faithful learning.jumps passed told ctx') (StorageExhausted .addition)

theorem Kept.tells_propagateLearning {literal : Literal}
    (h : Kept log (.propagate literal, ctx)) :
    ctx.Tells (propagateLearning literal []) (Course (.propagate literal, ctx)) := by
  have hends := propagateLearning_ends ctx.trail.level [] h.poised.2.of_timely (Nat.le_refl _) (by simp)
  refine ends_mono (ends_and (propagateLearning_course literal []) hends) ?_ ?_
  · rintro learning ctx' ⟨⟨passed, told, hcourse, hjumps⟩, _⟩
    refine ⟨passed, told, hcourse, ?_⟩
    rw [hjumps, List.nil_append]
    exact hcourse.faithful h
  · rintro fault ctx' ⟨_, hfails⟩
    exact (Exhausted.of_fails h.justified.sound hfails).toStorageExhausted

theorem Kept.tells_resolveConflict (h : Kept log (phase, ctx)) (hfree : phase.Free)
    (hfalse : ∀ literal ∈ clause, ctx.valuation.status literal = .fails) :
    ctx.Tells (resolveConflict clause) (ctx.Resolves clause) := by
  refine ends_mono (h.resolveConflict_spec hfree hfalse) ?_ fun _ _ => id
  rintro learning ctx' ⟨⟨passed, told, hresolves, hjumps⟩, _⟩
  refine ⟨passed, told, hresolves, ?_⟩
  rw [hjumps]
  exact hresolves.faithful h hfree

end Satisfiability.Context
