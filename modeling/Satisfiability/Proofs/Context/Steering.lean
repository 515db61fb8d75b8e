import Satisfiability.Proofs.Context.Outside
import Satisfiability.Proofs.Context.Session

/-!
# Searches steered from outside

Between the operations of a search its context is in other hands (`Phase.Free`). There any open
literal can be decided on, and a clause given that is false and need not follow from those added;
the search learns from it and goes on (`Resolves`). At each point reached in this way (`Steered`)
the context is in order, just as at the points of a session, and sound for all clauses added or
given.
-/

namespace Satisfiability.Context

open Search Step Trail

variable {ρ : Type} {ctx ctx' ctx'' : Context ρ} {log : List (Source × Clause)} {phase : Phase}
  {clause canonical : Clause} {clauses : List Clause} {key : ClauseKey} {top : Nat}
  {M : (Atom → Bool) → Prop} {passed told : List (Context ρ)} {point : Phase × Context ρ}

def Phase.Free : Phase → Prop
  | .start | .decide | .finished _ => True
  | .ground _ | .propagate _ | .learn _ => False

/-- Whether nothing is left to be propagated. A search that has not begun may have something left on
the ground, and so may one that ended there. -/
def Complete : Phase × Context ρ → Prop
  | (.decide, _) | (.finished .unknown, _) => True
  | (.start, ctx) | (.finished _, ctx) => 0 < ctx.trail.level
  | _ => False

theorem Kept.atRest (h : Kept log (phase, ctx)) (hfree : phase.Free) : ctx.AtRest := by
  cases phase with
  | start => exact h.poised
  | decide => exact Or.inr h.poised
  | finished report => exact h.poised.atRest
  | ground | propagate | learn => exact hfree.elim

theorem AtRest.settled (h : ctx.AtRest) (hlevel : 0 < ctx.trail.level) : ctx.Settled :=
  h.resolve_left fun hground => absurd hground.1 (Nat.ne_of_gt hlevel)

theorem AtRest.withState_unsatisfiable (h : ctx.AtRest) :
    (ctx.withState .unsatisfiable).AtRest := by
  rcases h with ⟨hlevel, _⟩ | hsettled
  · exact atRest_refuted hlevel
  · exact Or.inr (hsettled.withState _)

theorem Kept.settled (h : Kept log (phase, ctx)) (hcomplete : Complete (phase, ctx)) :
    ctx.Settled := by
  cases phase with
  | start => exact AtRest.settled h.poised hcomplete
  | decide => exact h.poised
  | finished report =>
    cases report with
    | unknown => exact h.poised
    | satisfiable | unsatisfiable => exact AtRest.settled h.poised hcomplete
  | ground | propagate | learn => exact hcomplete.elim

/-! ## How learning from a clause begins -/

/-- How learning from a false clause with a highest level begins: the contexts on the way, those
whose level is told, and the point from which the search goes on. -/
inductive Begins (ctx : Context ρ) (clause : Clause) (top : Nat) :
    (passed told : List (Context ρ)) → Phase × Context ρ → Prop
  | forced {ctx' : Context ρ} {asserted : Literal} {level : Nat} {key : ClauseKey}
    (hsingle : ctx.ofLevel top clause = [asserted]) (hlevel : ctx.backjumpLevel clause = .ok level)
    (hrun : (backtrack clause asserted level).run.run ctx.withConflict = (.ok key, ctx')) :
    Begins ctx clause top [ctx'] [ctx'] (.propagate asserted, ctx')
  /-- A clause with several literals of the newest level is stored. -/
  | stored {ctx' : Context ρ} {key : ClauseKey}
    (hseveral : ∀ asserted, ctx.ofLevel top clause ≠ [asserted]) (hnewest : ¬ top < ctx.trail.level)
    (hrun : (storeClause clause .addition).run.run ctx = (.ok key, ctx')) :
    Begins ctx clause top [ctx'] [] (.learn key, ctx')
  /-- One with several literals of a lower level is stored after the return to that level. -/
  | returned {ctx₁ ctx₂ : Context ρ} {key : ClauseKey}
    (hseveral : ∀ asserted, ctx.ofLevel top clause ≠ [asserted]) (hlower : top < ctx.trail.level)
    (hreturn : (backjump top).run.run ctx = (.ok (), ctx₁))
    (hrun : (storeClause clause .addition).run.run ctx₁ = (.ok key, ctx₂)) :
    Begins ctx clause top [ctx₁, ctx₂] [ctx₁] (.learn key, ctx₂)

/-- The whole course of learning from a false clause. -/
inductive Resolves (ctx : Context ρ) (clause : Clause) :
    (passed told : List (Context ρ)) → Phase × Context ρ → Prop
  /-- A clause false on the ground refutes the problem. -/
  | refuted {canonical : Clause} {levels : List Nat} (hcanonical : clause.canonical? = some canonical)
    (hlevels : ctx.falseLevels? canonical = some levels) (htop : levels.foldl max 0 = 0) :
    Resolves ctx clause [ctx.withState .unsatisfiable] []
      (.finished .unsatisfiable, ctx.withState .unsatisfiable)
  | learnt {canonical : Clause} {levels : List Nat} {passed told passed' told' : List (Context ρ)}
    {point last : Phase × Context ρ} (hcanonical : clause.canonical? = some canonical)
    (hlevels : ctx.falseLevels? canonical = some levels) (htop : levels.foldl max 0 ≠ 0)
    (hbegins : ctx.Begins canonical (levels.foldl max 0) passed told point)
    (hcourse : Course point passed' told' last) :
    Resolves ctx clause (passed ++ passed') (told ++ told') last

theorem learn_course (key : ClauseKey) (jumps : List Nat) :
    Ensures (do
        match ← learn key with
        | none => return ⟨false, jumps⟩
        | some (asserted, level) => propagateLearning asserted (jumps ++ [level]) :
          Step (Context ρ) Learning) ctx
      (fun learning ctx' => ∃ passed told, Course (.learn key, ctx) passed told (learning.point ctx') ∧
        learning.jumps = jumps ++ told.map (·.trail.level)) anyFault := by
  rw [ensures_bind]
  refine ensures_mono (ensures_and_run (learn_level key)) ?_ fun _ => id
  rintro (_ | ⟨asserted, level⟩) ctx₁ ⟨hlevel, hrun⟩
  · exact ⟨_, _, .refuted hrun, (List.append_nil jumps).symm⟩
  · refine ensures_mono (propagateLearning_course asserted _) ?_ fun _ => id
    rintro learning ctx₂ ⟨passed, told, hcourse, hjumps⟩
    refine ⟨_, _, .learnt hrun hcourse, ?_⟩
    obtain rfl : level = ctx₁.trail.level := hlevel _ rfl
    rw [hjumps, List.append_assoc, List.singleton_append, List.map_cons]

theorem resolveConflict_resolves (hagrees : ctx.Agrees) (clause : Clause) :
    Ensures (resolveConflict clause) ctx (fun learning ctx' => ∃ passed told,
      ctx.Resolves clause passed told (learning.point ctx') ∧
        learning.jumps = told.map (·.trail.level)) anyFault := by
  unfold resolveConflict
  rcases hcanonical : clause.canonical? with _ | canonical
  · trivial
  obtain ⟨hnodup, _⟩ := Clause.canonical?_eq_some hcanonical
  simp only [ensures_bind, ensures_get]
  rcases hlevels : ctx.falseLevels? canonical with _ | levels
  · trivial
  by_cases htop : levels.foldl max 0 = 0
  · simp only [htop, if_true, setState, ensures_bind, ensures_modify, ensures_pure]
    exact ⟨_, _, .refuted hcanonical hlevels htop, rfl⟩
  simp only [htop, if_false]
  split
  · rename_i asserted hsingle
    simp only [countConflict, ensures_bind, ensures_modify]
    rcases hlevel : ctx.backjumpLevel canonical with fault | level
    · trivial
    · simp only [ensures_bind, ensures_discard, ensures_get]
      refine ensures_mono (ensures_run _ _) ?_ fun _ => id
      intro key ctx₁ hrun
      refine ensures_mono (propagateLearning_course asserted _) ?_ fun _ => id
      rintro learning ctx₂ ⟨passed, told, hcourse, hjumps⟩
      exact ⟨_, _, .learnt hcanonical hlevels htop (.forced hsingle hlevel hrun) hcourse, hjumps⟩
  · rename_i hseveral
    by_cases hlower : levels.foldl max 0 < ctx.trail.level
    · rw [if_pos hlower, ensures_bind]
      -- the level told is the one returned to
      refine ensures_mono (ensures_and_run (backjump_spec hagrees (Nat.le_of_lt hlower))) ?_
        fun _ => False.elim
      rintro _ ctx₁ ⟨hreturned, hreturn⟩
      rw [ensures_bind, ensures_pure, ensures_bind]
      refine ensures_mono (ensures_run _ ctx₁) (fun key ctx₂ hrun => ?_) fun _ => id
      refine ensures_mono (learn_course key _) ?_ fun _ => id
      rintro learning ctx₃ ⟨passed, told, hcourse, hjumps⟩
      refine ⟨_, _, .learnt hcanonical hlevels htop (.returned hseveral hlower hreturn hrun) hcourse, ?_⟩
      rw [hjumps, List.map_append, List.map_singleton, hreturned.level]
    · rw [if_neg hlower, ensures_bind, ensures_pure, ensures_bind]
      refine ensures_mono (ensures_run _ ctx) (fun key ctx₁ hrun => ?_) fun _ => id
      refine ensures_mono (learn_course key []) ?_ fun _ => id
      rintro learning ctx₂ ⟨passed, told, hcourse, hjumps⟩
      exact ⟨_, _, .learnt hcanonical hlevels htop (.stored hseveral hlower hrun) hcourse, hjumps⟩

/-! ## What learning from a clause keeps -/

theorem Kept.returned (h : Kept log (phase, ctx)) (hsettled : ctx.Settled)
    (hreturned : ctx.Returned top ctx') : Kept log (.decide, ctx') := by
  have hintact := hreturned.intact h.intact
  refine ⟨hintact, hreturned.justified h.justified, hreturned.accounted h.accounted,
    hsettled.noted.of_units hreturned.extends fun source => by rw [hreturned.same.clauses],
    ⟨hintact, fun _ hmem => absurd hmem List.not_mem_nil, ?_⟩⟩
  exact (hreturned.guarded hsettled.waiting.guarded fun _ _ _ hpending =>
    absurd hpending List.not_mem_nil).mono fun _ _ hfalse => hfalse.elim

section begins

variable (h : Kept log (phase, ctx)) (hsettled : ctx.Settled) (hfalse : ctx.FalseUpTo clause top)

include h hsettled hfalse

theorem FalseUpTo.learnt {asserted : Literal} {level : Nat} (htop : 0 < top)
    (hsingle : ctx.ofLevel top clause = [asserted]) (hlevel : ctx.backjumpLevel clause = .ok level)
    (hrun : (backtrack clause asserted level).run.run ctx.withConflict = (.ok key, ctx')) :
    ctx.Assertable clause asserted level ∧ ctx.ForcedBy clause asserted level ∧
      ctx.Learnt clause asserted level ctx' False := by
  have hagrees := h.intact.agrees
  have hcounted := similar_withConflict hagrees.coherent
  obtain ⟨target, htarget, hassertable, hforced⟩ := hfalse.backjumpLevel hagrees htop hsingle
  obtain rfl : target = level := by
    rw [htarget] at hlevel
    exact Except.ok.inj hlevel
  have hlearnt := ends_ok (backtrack_spec (hcounted.intact h.intact) hassertable.withConflict
    (hcounted.guarded hsettled.waiting.guarded) fun _ _ _ hpending =>
      absurd hpending List.not_mem_nil) hrun
  exact ⟨hassertable, hforced, hlearnt.of_withConflict hagrees.coherent⟩

/-- Where several literals are of the highest level the clause is in conflict once it is stored. -/
theorem FalseUpTo.stored (hseveral : ∀ asserted, ctx.ofLevel top clause ≠ [asserted])
    (hreturned : ctx.Returned top ctx')
    (hrun : (storeClause clause .addition).run.run ctx' = (.ok key, ctx'')) :
    ctx'.Stored clause .addition key ctx'' ∧ Kept (log ++ logged .addition clause) (.learn key, ctx'') := by
  have hagrees := h.intact.agrees
  have hkept := h.returned hsettled hreturned
  have hfalse' := hfalse.of_returned hagrees hreturned
  rw [← hfalse.ofLevel_of_returned hagrees hreturned] at hseveral
  have hstored := ends_ok (storeClause_spec hkept.intact.agrees hkept.intact.exact
    hfalse.proper.nodup hfalse'.proper.atoms (hfalse'.two_le_length hreturned.agrees hseveral)
    .addition) hrun
  have hsettled' : ctx'.Settled := hkept.poised
  have hguarded : ctx'.Guarded (fun _ _ => False) False :=
    hsettled'.waiting.guarded.mono fun _ _ => List.not_mem_nil
  exact ⟨hstored, hstored.intact hkept.intact, hstored.justified hkept.justified,
    hstored.accounted hkept.accounted, hsettled'.noted.of_units hstored.extends hstored.units,
    hstored.inConflict hreturned.agrees hguarded hfalse' hseveral⟩

theorem FalseUpTo.begins (htop : 0 < top) (hbegins : ctx.Begins clause top passed told point) :
    Kept (log ++ logged .addition clause) point ∧ point.2.clauses.Added clause ∧
      ∀ M, ctx.Sound M → Sound (Within M clause) point.2 := by
  cases hbegins with
  | forced hsingle hlevel hrun =>
    obtain ⟨hassertable, hforced, hlearnt⟩ := hfalse.learnt h hsettled htop hsingle hlevel hrun
    exact ⟨h.of_learnt hsettled.noted hassertable hforced hlearnt, hlearnt.added,
      fun M hM => hlearnt.sound _ (hM.within clause) hforced fun _ => And.right⟩
  | stored hseveral hnewest hrun =>
    have hagrees := h.intact.agrees
    obtain rfl : top = ctx.trail.level := Nat.le_antisymm hfalse.le_level (Nat.le_of_not_lt hnewest)
    obtain ⟨hstored, hkept⟩ := hfalse.stored h hsettled hseveral (.refl hagrees) hrun
    exact ⟨hkept, hstored.added, fun M hM => hstored.sound (hM.within clause) fun _ => And.right⟩
  | returned hseveral hlower hreturn hrun =>
    have hreturned := ensures_ok (backjump_spec h.intact.agrees (Nat.le_of_lt hlower)) hreturn
    obtain ⟨hstored, hkept⟩ := hfalse.stored h hsettled hseveral hreturned hrun
    exact ⟨hkept, hstored.added,
      fun M hM => hstored.sound (hreturned.sound (hM.within clause)) fun _ => And.right⟩

end begins

/-! ## What the search keeps -/

theorem Kept.sound_admitted (h : Kept log (.start, ctx)) (hlevel : ctx.trail.level = 0)
    (hM : ctx.Sound M) (hclause : ∀ model, M model → Satisfied model canonical)
    (hadmitted : ctx.Admitted canonical ctx') : ctx'.Sound M := by
  rcases canonical with _ | ⟨literal, _ | ⟨second, rest⟩⟩
  · obtain rfl : ctx' = ctx.withState .unsatisfiable := hadmitted
    refine hM.withState fun _ model hmodel => ?_
    obtain ⟨literal, hmem, _⟩ := hclause model hmodel
    exact List.not_mem_nil hmem
  · have hliteral : ∀ model, M model → model literal.atom = literal.positive :=
      fun model hmodel => satisfied_singleton.1 (hclause model hmodel)
    have hunit : (ctx.withUnit literal .problem).Sound M := hM.withUnit hliteral
    rcases hadmitted with ⟨hnone, hrecorded⟩ | ⟨_, rfl⟩ | ⟨⟨level, hmark⟩, rfl⟩
    · obtain ⟨_, hjustified, _⟩ := h.recorded_unit hlevel hnone hrecorded
      refine ⟨hjustified, ?_, ?_⟩
      · rw [hrecorded.same.clauses]
        exact hunit.entailed
      · rw [hrecorded.same.state]
        exact hunit.refuted
    · exact hunit
    · -- the literal is false without a decision
      have hground : level = 0 := Nat.le_zero.1 (hlevel ▸ level_le hmark)
      subst hground
      refine hunit.withState fun _ => hM.no_model hclause fun other hother => ?_
      rwa [List.mem_singleton.1 hother]
  · obtain ⟨key, hstored⟩ := hadmitted
    exact hstored.sound hM hclause

theorem Kept.sound_addClause {result : Option Clause} (h : Kept log (.start, ctx))
    (hatoms : ∀ literal ∈ clause, literal.atom < ctx.atoms.count)
    (hrun : (Context.addClause clause).run.run ctx = (.ok result, ctx'))
    (hsound : ctx.Sound (Models clauses)) :
    ctx'.Sound (Models (clauses ++ [clause])) := by
  have hsound' : ctx.Sound (Models (clauses ++ [clause])) :=
    hsound.mono fun model hmodel => (models_append.1 hmodel).1
  obtain ⟨_, hadmitted⟩ := h.admits hatoms hrun
  rcases hcanonical : clause.canonical? with _ | canonical
  · rw [hcanonical] at hadmitted
    exact hadmitted ▸ hsound'
  · rw [hcanonical] at hadmitted
    obtain ⟨_, hsame⟩ := Clause.canonical?_eq_some hcanonical
    refine h.sound_admitted (level_of_addClause hrun) hsound' (fun model hmodel => ?_) hadmitted
    exact (models_append.1 hmodel).2.subset fun literal => (hsame literal).2

variable [RandomSource ρ] [LawfulRandomSource ρ] {point' : Phase × Context ρ}

theorem Kept.of_resolves (h : Kept log (phase, ctx)) (hfree : phase.Free)
    (hresolves : ctx.Resolves clause passed told point) :
    (∃ log', Kept log' point) ∧ (point.1 = .decide → ∃ canonical, clause.canonical? = some canonical ∧
      point.2.clauses.Added canonical) ∧ ∀ M, ctx.Sound M → Sound (Within M clause) point.2 := by
  have hagrees := h.intact.agrees
  cases hresolves with
  | @refuted canonical levels hcanonical hlevels htop =>
    obtain ⟨_, hsame⟩ := Clause.canonical?_eq_some hcanonical
    refine ⟨⟨log, kept_withState h.intact h.justified h.accounted ?_⟩, nofun, fun M hM =>
      Sound.within_congr ((hM.within canonical).withState fun _ => ?_) hsame⟩
    · exact (h.atRest hfree).withState_unsatisfiable
    · refine (hM.within canonical).no_model (fun _ => And.right) fun literal hmem => ?_
      obtain ⟨level, hlevel, hmark⟩ := (falseLevels?_spec hagrees hlevels).1 literal hmem
      have hzero := ((foldl_max_le levels 0).1 (Nat.le_of_eq htop)).2 level hlevel
      rwa [Nat.le_zero.1 hzero] at hmark
  | @learnt canonical levels passed told passed' told' begun last hcanonical hlevels htop hbegins
      hcourse =>
    obtain ⟨hnodup, hsame⟩ := Clause.canonical?_eq_some hcanonical
    have hfalse := falseUpTo_of_falseLevels? hagrees hnodup hlevels htop
    have hpos := Nat.pos_of_ne_zero htop
    -- the clause is false above the ground, so nothing waits there
    have hsettled := (h.atRest hfree).settled (Nat.lt_of_lt_of_le hpos hfalse.le_level)
    obtain ⟨hkept, hadded, hsound⟩ := hfalse.begins h hsettled hpos hbegins
    obtain ⟨hkept', hextends, hsound'⟩ := hkept.moves hcourse.moves
    exact ⟨hkept', fun _ => ⟨canonical, hcanonical, hextends.grows.added hadded⟩, fun M hM =>
      (hsound' _ (hsound M hM)).within_congr hsame⟩

omit [RandomSource ρ] [LawfulRandomSource ρ] in
/-- From a false clause something is learnt, while there are numbers for what is learnt. -/
theorem Kept.resolveConflict_spec (h : Kept log (phase, ctx)) (hfree : phase.Free)
    (hfalse : ∀ literal ∈ clause, ctx.valuation.status literal = .fails) :
    Ends (resolveConflict clause) ctx (fun learning ctx' =>
      (∃ passed told, ctx.Resolves clause passed told (learning.point ctx') ∧
        learning.jumps = told.map (·.trail.level)) ∧
      (learning.consistent = false → ctx'.state = .unsatisfiable)) (StorageExhausted .addition) := by
  have hagrees := h.intact.agrees
  obtain ⟨canonical, levels, hcanonical, hlevels⟩ := exists_canonical_levels hfalse
  have hsucceeds : Ends (resolveConflict clause) ctx
      (fun learning ctx' => learning.consistent = false → ctx'.state = .unsatisfiable)
      (StorageExhausted .addition) := by
    by_cases htop : levels.foldl max 0 = 0
    · rw [Ends, run_resolveConflict_ground hcanonical hlevels htop]
      exact fun _ => rfl
    · obtain ⟨hnodup, _⟩ := Clause.canonical?_eq_some hcanonical
      have hupTo := falseUpTo_of_falseLevels? hagrees hnodup hlevels htop
      have hsettled := (h.atRest hfree).settled
        (Nat.lt_of_lt_of_le (Nat.pos_of_ne_zero htop) hupTo.le_level)
      have hends := resolveConflict_false_ends hsettled.waiting.of_timely hcanonical hlevels
      refine ends_mono hends (fun _ _ hlowered => hlowered.refuted) fun fault ctx' hfails => ?_
      exact hfails.resolve_left fun hstuck => hstuck.before h.justified
  exact ends_mono (ends_and (resolveConflict_resolves hagrees clause) hsucceeds)
    (fun _ _ => id) fun _ _ => And.right

/-! ## Steered searches -/

/-- The points of a search that is steered from outside, with the clauses added or given on the way.
-/
inductive Steered [RandomSource ρ] : List Clause → Phase × Context ρ → Prop
  | empty (config : Config) (random : ρ) : Steered [] (.start, .empty config random)
  | atom {clauses : List Clause} {ctx ctx' : Context ρ} {name : String} {atom : Atom}
    (h : Steered clauses (.start, ctx)) (hrun : (freshAtom name).run.run ctx = (.ok atom, ctx')) :
    Steered clauses (.start, ctx')
  | clause {clauses : List Clause} {ctx ctx' : Context ρ} {clause : Clause} {result : Option Clause}
    (h : Steered clauses (.start, ctx)) (hatoms : ∀ literal ∈ clause, literal.atom < ctx.atoms.count)
    (hrun : (addClause clause).run.run ctx = (.ok result, ctx')) :
    Steered (clauses ++ [clause]) (.start, ctx')
  | refused {clauses : List Clause} {ctx ctx' : Context ρ} {clause : Clause} {fault : Fault}
    (h : Steered clauses (.start, ctx)) (hatoms : ∀ literal ∈ clause, literal.atom < ctx.atoms.count)
    (hrun : (addClause clause).run.run ctx = (.error fault, ctx')) : Steered clauses (.start, ctx')
  | move {clauses : List Clause} {point point' : Phase × Context ρ} (h : Steered clauses point)
    (hmove : Move point point') : Steered clauses point'
  | broken {clauses : List Clause} {point : Phase × Context ρ} {fault : Fault} {ctx' : Context ρ}
    (h : Steered clauses point) (hbreaks : Breaks point fault ctx') : Steered clauses (.start, ctx')
  /-- Atoms and clauses can be added again, and a search begun. -/
  | again {clauses : List Clause} {phase : Phase} {ctx : Context ρ} (h : Steered clauses (phase, ctx))
    (hfree : phase.Free) : Steered clauses (.start, ctx)
  | decided {clauses : List Clause} {phase : Phase} {ctx ctx' : Context ρ} {literal : Literal}
    (h : Steered clauses (phase, ctx)) (hcomplete : Complete (phase, ctx)) (hopen : ctx.Open literal)
    (hrecord : (do openLevel; record literal none : Step (Context ρ) Unit).run.run ctx =
      (.ok (), ctx')) : Steered clauses (.propagate literal, ctx')
  | resolved {clauses : List Clause} {phase : Phase} {ctx ctx' : Context ρ} {clause : Clause}
    {learning : Learning} (h : Steered clauses (phase, ctx)) (hfree : phase.Free)
    (hrun : (resolveConflict clause).run.run ctx = (.ok learning, ctx')) :
    Steered (clauses ++ [clause]) (learning.point ctx')

/-- Each point of a steered search is in order, and sound for all clauses added or given. -/
theorem Steered.spec (h : Steered clauses point) :
    (∃ log, Kept log point) ∧ Sound (Models clauses) point.2 := by
  induction h with
  | empty config random => exact ⟨⟨_, kept_empty config random⟩, (built_empty config random).sound⟩
  | atom _ hrun ih =>
    obtain ⟨⟨log, hkept⟩, hsound⟩ := ih
    obtain ⟨_, hwidened⟩ := ends_ok (freshAtom_spec hkept.intact.agrees.coherent _) hrun
    exact ⟨⟨log, hkept.freshAtom hrun⟩, hwidened.sound hsound⟩
  | clause _ hatoms hrun ih =>
    obtain ⟨⟨log, hkept⟩, hsound⟩ := ih
    exact ⟨⟨_, hkept.addClause hatoms hrun⟩, hkept.sound_addClause hatoms hrun hsound⟩
  | refused _ hatoms hrun ih =>
    obtain ⟨⟨log, hkept⟩, hsound⟩ := ih
    have hsimilar := hkept.similar_refused hatoms hrun
    exact ⟨⟨log, hkept.similar hsimilar (hsimilar.atRest hkept.poised)⟩, hsimilar.sound hsound⟩
  | move _ hmove ih =>
    obtain ⟨⟨log, hkept⟩, hsound⟩ := ih
    exact ⟨⟨_, hkept.move hmove⟩, (hkept.effect hmove).extends_sound.2 _ hsound⟩
  | broken _ hbreaks ih =>
    obtain ⟨⟨log, hkept⟩, hsound⟩ := ih
    exact ⟨⟨log, hkept.broken hbreaks⟩, hkept.sound_broken hbreaks hsound⟩
  | again _ hfree ih =>
    obtain ⟨⟨log, hkept⟩, hsound⟩ := ih
    exact ⟨⟨log, hkept.intact, hkept.justified, hkept.accounted, hkept.atRest hfree⟩, hsound⟩
  | decided _ hcomplete hopen hrecord ih =>
    obtain ⟨⟨log, hkept⟩, hsound⟩ := ih
    have hsettled := hkept.settled hcomplete
    have hdecided := ensures_ok (record_decision_spec hsettled.waiting hopen) hrecord
    exact ⟨⟨log, hkept.decided hsettled hopen hrecord⟩, hdecided.sound _ hsound⟩
  | resolved _ hfree hrun ih =>
    obtain ⟨⟨log, hkept⟩, hsound⟩ := ih
    obtain ⟨passed, told, hresolves, _⟩ :=
      ensures_ok (resolveConflict_resolves hkept.intact.agrees _) hrun
    obtain ⟨hkept', _, hsound'⟩ := hkept.of_resolves hfree hresolves
    -- a clause given counts as one more clause of the problem
    refine ⟨hkept', (hsound' _ hsound).mono fun model hmodel => ?_⟩
    exact models_append.1 hmodel

omit [LawfulRandomSource ρ] in
theorem Session.steered (h : Session log point) : ∃ clauses, Steered clauses point := by
  induction h with
  | empty config random => exact ⟨[], .empty config random⟩
  | atom _ hrun ih =>
    obtain ⟨clauses, hsteered⟩ := ih
    exact ⟨clauses, hsteered.atom hrun⟩
  | clause _ hatoms hrun ih =>
    obtain ⟨clauses, hsteered⟩ := ih
    exact ⟨_, hsteered.clause hatoms hrun⟩
  | refused _ hatoms hrun ih =>
    obtain ⟨clauses, hsteered⟩ := ih
    exact ⟨clauses, hsteered.refused hatoms hrun⟩
  | broken _ hbreaks ih =>
    obtain ⟨clauses, hsteered⟩ := ih
    exact ⟨clauses, hsteered.broken hbreaks⟩
  | move _ hmove ih =>
    obtain ⟨clauses, hsteered⟩ := ih
    exact ⟨clauses, hsteered.move hmove⟩
  | again _ ih =>
    obtain ⟨clauses, hsteered⟩ := ih
    exact ⟨clauses, hsteered.again trivial⟩

end Satisfiability.Context
