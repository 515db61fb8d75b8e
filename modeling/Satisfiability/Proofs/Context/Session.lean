import Satisfiability.Proofs.Context.Building

/-!
# Sessions

A session begins with an empty context. Atoms are created and clauses added, the context is
searched, and so on again (`Session`), also after a clause was refused or a search has broken off.
The log says what was stored up to some point. At each point of a session the context is in order,
and where no conflict is being dealt with, a false watch that does not wait has the other watch true
by its level (`Poised`): no clause comes late. So a literal that is propagated once more leads to
nothing new, even if a search is resumed above the ground.
-/

namespace Satisfiability.Context

open Search Step Trail

variable {ρ : Type} {ctx ctx' : Context ρ} {log : List (Source × Clause)} {phase phase' : Phase}

def additions (ctx : Context ρ) : Phase → List (Source × Clause)
  | .learn key =>
    match ctx.analyse key with
    | .ok (.learnt learnt) => logged .addition learnt.clause
    | _ => []
  | _ => []

/-- The points of sessions, with what was stored up to them. -/
inductive Session [RandomSource ρ] : List (Source × Clause) → Phase × Context ρ → Prop
  | empty (config : Config) (random : ρ) : Session [] (.start, .empty config random)
  | atom {log : List (Source × Clause)} {ctx ctx' : Context ρ} {name : String} {atom : Atom}
    (h : Session log (.start, ctx)) (hrun : (freshAtom name).run.run ctx = (.ok atom, ctx')) :
    Session log (.start, ctx')
  | clause {log : List (Source × Clause)} {ctx ctx' : Context ρ} {clause : Clause}
    {result : Option Clause} (h : Session log (.start, ctx))
    (hatoms : ∀ literal ∈ clause, literal.atom < ctx.atoms.count)
    (hrun : (addClause clause).run.run ctx = (.ok result, ctx')) :
    Session (log ++ result.elim [] (logged .problem)) (.start, ctx')
  | move {log : List (Source × Clause)} {point point' : Phase × Context ρ} (h : Session log point)
    (hmove : Move point point') : Session (log ++ point.2.additions point.1) point'
  | again {log : List (Source × Clause)} {ctx : Context ρ} {report : Report}
    (h : Session log (.finished report, ctx)) : Session log (.start, ctx)
  | refused {log : List (Source × Clause)} {ctx ctx' : Context ρ} {clause : Clause} {fault : Fault}
    (h : Session log (.start, ctx)) (hatoms : ∀ literal ∈ clause, literal.atom < ctx.atoms.count)
    (hrun : (addClause clause).run.run ctx = (.error fault, ctx')) : Session log (.start, ctx')
  | broken {log : List (Source × Clause)} {point : Phase × Context ρ} {fault : Fault}
    {ctx' : Context ρ} (h : Session log point) (hbreaks : Breaks point fault ctx') :
    Session log (.start, ctx')

section reached

variable [RandomSource ρ]

theorem Session.moves {point point' : Phase × Context ρ} (h : Session log point)
    (hmoves : Moves point point') : ∃ log', Session log' point' := by
  induction hmoves with
  | refl => exact ⟨log, h⟩
  | tail _ hmove ih =>
    obtain ⟨log', hlog'⟩ := ih
    exact ⟨_, hlog'.move hmove⟩

theorem Session.started (h : Session log (.start, ctx))
    (hstate : ¬ (ctx.state = .satisfiable ∨ ctx.state = .unsatisfiable))
    (hrun : (propagateGround ctx.trail.ground).run.run (ctx.withState .solving) = (.ok true, ctx')) :
    ∃ log', Session log' (.decide, ctx') := by
  have hmoves := ends_ok (propagateGround_moves ctx.trail.ground) hrun
  exact h.moves (.head (.started hstate) hmoves)

end reached

/-! ## What is in order -/

/-- The literals of the clauses of one literal are true without a decision. -/
def Noted (ctx : Context ρ) : Prop :=
  ∀ source, ∀ literal ∈ (ctx.clauses.shelf source).units, (literal, 0) ∈ ctx.trail.marked

/-- Nothing waits and no clause is late. -/
structure Settled (ctx : Context ρ) : Prop where
  noted : ctx.Noted
  waiting : ctx.Waiting [] False

/-- Between searches anything may wait that is true without a decision, and above the ground nothing
does. -/
def AtRest (ctx : Context ρ) : Prop :=
  (ctx.trail.level = 0 ∧ (ctx.state ≠ .unsatisfiable → ctx.Noted)) ∨ ctx.Settled

def Poised (ctx : Context ρ) : Phase → Prop
  | .decide | .finished .unknown => ctx.Settled
  | .start | .finished .satisfiable | .finished .unsatisfiable => ctx.AtRest
  | .ground rest => ctx.Noted ∧ ((ctx.trail.level = 0 ∧ ctx.Waiting rest False) ∨
      (ctx.Waiting [] False ∧ ∀ literal ∈ rest, (literal, 0) ∈ ctx.trail.marked))
  | .propagate literal => ctx.Noted ∧ ctx.Waiting [literal] False
  | .learn key => ctx.Noted ∧ ctx.InConflict key False

structure Kept (log : List (Source × Clause)) (point : Phase × Context ρ) : Prop where
  intact : point.2.Intact
  justified : point.2.Justified
  accounted : point.2.Accounted log
  poised : point.2.Poised point.1

theorem Propagated.justified {news : List Literal} (h : ctx.Propagated news ctx')
    (hjustified : ctx.Justified) : ctx'.Justified :=
  (h.sound _ hjustified.sound).justified

theorem Similar.justified (h : ctx.Similar ctx') (hjustified : ctx.Justified) : ctx'.Justified :=
  (h.sound hjustified.sound).justified

theorem Noted.of_units (h : ctx.Noted) (hextends : ctx.Extends ctx')
    (hunits : ∀ source, (ctx'.clauses.shelf source).units = (ctx.clauses.shelf source).units) :
    ctx'.Noted := by
  intro source literal hunit
  rw [hunits] at hunit
  exact hextends.ground literal (h source literal hunit)

theorem Propagated.noted {news : List Literal} (h : ctx.Propagated news ctx') (hnoted : ctx.Noted) :
    ctx'.Noted :=
  hnoted.of_units h.extension h.units

theorem Similar.noted (h : ctx.Similar ctx') (hnoted : ctx.Noted) : ctx'.Noted :=
  hnoted.of_units h.extends fun source => by rw [h.clauses]

theorem Similar.settled (h : ctx.Similar ctx') (hsettled : ctx.Settled) : ctx'.Settled :=
  ⟨h.noted hsettled.noted, h.waiting hsettled.waiting⟩

theorem Similar.atRest (h : ctx.Similar ctx') (hrest : ctx.AtRest) : ctx'.AtRest := by
  rcases hrest with ⟨hlevel, hnoted⟩ | hsettled
  · refine Or.inl ⟨?_, fun hstate => h.noted (hnoted ?_)⟩
    · rw [h.trail]
      exact hlevel
    · rwa [← h.state]
  · exact Or.inr (h.settled hsettled)

theorem Settled.withState (h : ctx.Settled) (state : SearchState) : (ctx.withState state).Settled :=
  ⟨h.noted, h.waiting.withState state⟩

theorem AtRest.noted (h : ctx.AtRest) (hstate : ctx.state ≠ .unsatisfiable) : ctx.Noted := by
  rcases h with ⟨_, hnoted⟩ | hsettled
  · exact hnoted hstate
  · exact hsettled.noted

theorem Poised.atRest {report : Report} (h : ctx.Poised (.finished report)) : ctx.AtRest := by
  cases report with
  | satisfiable | unsatisfiable => exact h
  | unknown => exact Or.inr h

theorem Intact.waiting_ground (h : ctx.Intact) (hlevel : ctx.trail.level = 0) (late : Prop) :
    ctx.Waiting ctx.trail.ground late := by
  refine ⟨h, fun literal hmem => ?_, fun key watched hget => ?_⟩
  · rw [hlevel]
    exact mem_ground_iff.1 hmem
  · -- what is false is false without a decision, so its negation is among those that wait
    have hpending : ∀ watch i, (-watch, i) ∈ ctx.trail.marked → -watch ∈ ctx.trail.ground := by
      intro watch i hmark
      have hle := level_le hmark
      rw [hlevel] at hle
      rw [mem_ground_iff]
      rwa [← Nat.le_zero.1 hle]
    exact ⟨Guard.of_pending (hpending _), Guard.of_pending (hpending _)⟩

theorem Waiting.of_timely {waiting : List Literal} {late : Prop} (h : ctx.Waiting waiting False) :
    ctx.Waiting waiting late :=
  ⟨h.intact, h.held, fun key watched hget =>
    ⟨(h.guarded key watched hget).1.of_timely, (h.guarded key watched hget).2.of_timely⟩⟩

theorem kept_empty (config : Config) (random : ρ) : Kept [] (.start, empty config random) := by
  have hbuilt := built_empty config random
  have hreason : ∀ atom, (empty config random).graph.reason? atom = none := fun atom => by
    simp [empty, ImplicationGraph.reason?, ImplicationGraph.node]
  refine ⟨hbuilt.waiting.intact, hbuilt.sound.justified, ⟨⟨?_, ?_, ?_⟩, ?_, ?_, ?_, ?_⟩,
    Or.inl ⟨rfl, ?_⟩⟩
  · simp [empty, ImplicationGraph.node]
  · simp [empty, ImplicationGraph.node]
  · exact fun atom _ => hreason atom
  · intro atom key hkey
    rw [hreason] at hkey
    cases hkey
  · intro atom parent
    rw [hreason]
    simp [empty, ImplicationGraph.node, reasonAtoms]
  · intro literal level key hmark
    simp [empty, Trail.marked, Trail.markedLevels] at hmark
  · exact ClauseStore.records_empty
  · intro _ source literal hunit
    cases source <;> simp [empty, ClauseStore.shelf] at hunit

theorem kept_withState (hintact : ctx.Intact) (hjustified : ctx.Justified)
    (haccounted : ctx.Accounted log) {state : SearchState}
    (hpoised : (ctx.withState state).Poised phase) : Kept log (phase, ctx.withState state) :=
  ⟨hintact.withState state, hjustified, haccounted.mono (.refl _) (fun _ => rfl) (fun _ => rfl) rfl
    haccounted.records, hpoised⟩

theorem Kept.propagated (h : Kept log (phase, ctx)) {news : List Literal}
    (hpropagated : ctx.Propagated news ctx') (hintact : ctx'.Intact) (hpoised : ctx'.Poised phase') :
    Kept log (phase', ctx') :=
  ⟨hintact, hpropagated.justified h.justified, hpropagated.accounted log h.accounted, hpoised⟩

theorem Kept.similar (h : Kept log (phase, ctx)) (hsimilar : ctx.Similar ctx')
    (hpoised : ctx'.Poised phase') : Kept log (phase', ctx') :=
  ⟨hsimilar.intact h.intact, hsimilar.justified h.justified, hsimilar.accounted h.accounted, hpoised⟩

theorem atRest_refuted (hlevel : ctx.trail.level = 0) : (ctx.withState .unsatisfiable).AtRest :=
  Or.inl ⟨hlevel, fun hne => absurd rfl hne⟩

/-! ## Between searches -/

theorem Kept.freshAtom {name : String} {atom : Atom} (h : Kept log (.start, ctx))
    (hrun : (freshAtom name).run.run ctx = (.ok atom, ctx')) : Kept log (.start, ctx') := by
  obtain ⟨_, hwidened⟩ := ends_ok (freshAtom_spec h.intact.agrees.coherent name) hrun
  refine ⟨hwidened.intact h.intact, hwidened.justified h.justified, hwidened.accounted h.accounted,
    ?_⟩
  have hnoted (hbefore : ctx.Noted) : ctx'.Noted := by
    simp only [Noted, hwidened.clauses, hwidened.trail]
    exact hbefore
  rcases h.poised with ⟨hlevel, hunits⟩ | ⟨hunits, hwaiting⟩
  · refine Or.inl ⟨?_, fun hstate => hnoted (hunits ?_)⟩
    · rw [hwidened.trail]
      exact hlevel
    · rwa [← hwidened.state]
  · exact Or.inr ⟨hnoted hunits, hwidened.waiting hwaiting⟩

section admitted

variable (h : Kept log (.start, ctx)) (hlevel : ctx.trail.level = 0)

include h hlevel

theorem Kept.recorded_unit {literal : Literal} (hnone : ctx.atoms.placement? literal.atom = none)
    (hrecorded : (ctx.withUnit literal .problem).Recorded literal (some (.unit .problem literal)) ctx') :
    ctx'.Intact ∧ ctx'.Justified ∧ ctx'.Accounted (log ++ logged .problem [literal]) := by
  have hintact : (ctx.withUnit literal .problem).Intact := h.intact.withUnit
  have hlevel' : (ctx.withUnit literal .problem).trail.level = 0 := hlevel
  have hforces : Forces (ctx.withUnit literal .problem).clauses
      (ctx.withUnit literal .problem).trail.marked (.unit .problem literal) literal
        (ctx.withUnit literal .problem).trail.marked.length :=
    ⟨[literal], has_noteUnit ctx.clauses literal .problem, List.mem_cons_self,
      fun other hother hne => absurd (List.mem_singleton.1 hother) hne⟩
  exact ⟨hrecorded.intact hintact,
    hrecorded.justified h.justified.withUnit hintact.agrees hforces hnone,
    hrecorded.accounted (h.accounted.withUnit .problem) hintact.agrees hnone hforces.valued
      fun _ _ hpos => absurd hlevel' (Nat.ne_of_gt hpos)⟩

/-- A unit clause is noted, and its literal is true on the ground wherever the clauses are not
refuted. -/
theorem Kept.admitted_unit {literal : Literal} (hadmitted : ctx.Admitted [literal] ctx') :
    Kept (log ++ logged .problem [literal]) (.start, ctx') := by
  have hintact : (ctx.withUnit literal .problem).Intact := h.intact.withUnit
  have hjustified : (ctx.withUnit literal .problem).Justified := h.justified.withUnit
  have haccounted : (ctx.withUnit literal .problem).Accounted (log ++ logged .problem [literal]) :=
    h.accounted.withUnit .problem
  have hlevel' : (ctx.withUnit literal .problem).trail.level = 0 := hlevel
  have hnoted : ∀ ctx₁ : Context ρ, ctx.Extends ctx₁ → (literal, 0) ∈ ctx₁.trail.marked →
      ctx₁.clauses = (ctx.withUnit literal .problem).clauses → ctx.Noted → ctx₁.Noted := by
    intro ctx₁ hextends hmark hclauses hnoted source other hother
    rw [hclauses] at hother
    rcases mem_units_withUnit hother with hother | heq
    · exact hextends.ground other (hnoted source other hother)
    · cases heq
      exact hmark
  -- the literal had no value, was true, or was false
  rcases hadmitted with ⟨hnone, hrecorded⟩ | ⟨⟨level, hmark⟩, rfl⟩ | ⟨_, rfl⟩
  · obtain ⟨hintact', hjustified', haccounted'⟩ := h.recorded_unit hlevel hnone hrecorded
    refine ⟨hintact', hjustified', haccounted', Or.inl ⟨hrecorded.level.trans hlevel', fun hstate => ?_⟩⟩
    refine hnoted ctx' (extends_withUnit.trans hrecorded.extends) ?_ hrecorded.same.clauses
      (AtRest.noted h.poised ?_)
    · rw [hrecorded.marked, hlevel']
      exact List.mem_append_right _ List.mem_cons_self
    · have hsame : ctx'.state = ctx.state := hrecorded.same.state
      exact hsame ▸ hstate
  · have hground : level = 0 := Nat.le_zero.1 (hlevel ▸ level_le hmark)
    subst hground
    exact ⟨hintact, hjustified, haccounted, Or.inl ⟨hlevel, fun hstate =>
      hnoted _ extends_withUnit hmark rfl (AtRest.noted h.poised hstate)⟩⟩
  · exact kept_withState hintact hjustified haccounted (atRest_refuted hlevel)

theorem Kept.admitted {canonical : Clause} (hadmitted : ctx.Admitted canonical ctx') :
    Kept (log ++ logged .problem canonical) (.start, ctx') := by
  rcases canonical with _ | ⟨literal, _ | ⟨second, rest⟩⟩
  · obtain rfl : ctx' = ctx.withState .unsatisfiable := hadmitted
    rw [show logged .problem [] = [] from rfl, List.append_nil]
    exact kept_withState h.intact h.justified h.accounted (atRest_refuted hlevel)
  · exact h.admitted_unit hlevel hadmitted
  · obtain ⟨key, hstored⟩ := hadmitted
    refine ⟨hstored.intact h.intact, hstored.justified h.justified, hstored.accounted h.accounted,
      Or.inl ⟨by rw [hstored.trail]; exact hlevel, fun hstate => ?_⟩⟩
    refine (AtRest.noted h.poised ?_).of_units hstored.extends hstored.units
    have hsame : ctx'.state = ctx.state := hstored.state
    exact hsame ▸ hstate

end admitted

theorem run_addClause_decided (hlevel : ctx.trail.level ≠ 0) (clause : Clause) :
    (addClause clause).run.run ctx = (.error .invalidState, ctx) := by
  have hdecision : ctx.trail.hasDecision = true := by
    have hlevels : ctx.trail.levels ≠ [] := fun hnil => hlevel (by simp [Trail.level, hnil])
    simpa [Trail.hasDecision] using hlevels
  have hrefused : Ends (addClause clause) ctx (fun _ _ => False)
      fun fault ctx' => fault = .invalidState ∧ ctx' = ctx := by
    unfold addClause
    simp only [ends_bind, ends_get, hdecision, if_true]
    exact ⟨rfl, rfl⟩
  obtain ⟨_, _, hrun, rfl, rfl⟩ := error_of_ends hrefused
  exact hrun

theorem level_of_addClause {clause : Clause} {result : Option Clause}
    (hrun : (addClause clause).run.run ctx = (.ok result, ctx')) : ctx.trail.level = 0 := by
  by_contra hlevel
  rw [run_addClause_decided hlevel] at hrun
  cases hrun

section clause

variable {clause : Clause} {result : Option Clause} (h : Kept log (.start, ctx))
  (hatoms : ∀ literal ∈ clause, literal.atom < ctx.atoms.count)
  (hrun : (addClause clause).run.run ctx = (.ok result, ctx'))

include h hatoms hrun

theorem Kept.admits : result = clause.canonical? ∧
    match clause.canonical? with
    | none => ctx' = ctx
    | some canonical => ctx.Admitted canonical ctx' := by
  have hadmits := ends_ok (addClause_admits h.intact (level_of_addClause hrun) hatoms) hrun
  exact hadmits

theorem Kept.extends_addClause : ctx.Extends ctx' := by
  obtain ⟨_, hadmitted⟩ := h.admits hatoms hrun
  rcases hcanonical : clause.canonical? with _ | canonical
  · rw [hcanonical] at hadmitted
    exact hadmitted ▸ .refl ctx
  · rw [hcanonical] at hadmitted
    exact hadmitted.extends

theorem Kept.level_addClause : ctx'.trail.level = 0 := by
  have hlevel := level_of_addClause hrun
  obtain ⟨_, hadmitted⟩ := h.admits hatoms hrun
  rcases hcanonical : clause.canonical? with _ | canonical
  · rw [hcanonical] at hadmitted
    exact hadmitted ▸ hlevel
  · rw [hcanonical] at hadmitted
    exact hadmitted.level.trans hlevel

theorem Kept.keeps_addClause (hstate : ctx'.state ≠ .unsatisfiable) : ctx'.Keeps clause := by
  have hlevel := level_of_addClause hrun
  obtain ⟨_, hadmitted⟩ := h.admits hatoms hrun
  rcases hcanonical : clause.canonical? with _ | canonical
  · obtain ⟨literal, hpos, hneg⟩ := Clause.canonical?_eq_none hcanonical
    exact Or.inl ⟨literal, hpos, hneg⟩
  · rw [hcanonical] at hadmitted
    obtain ⟨_, hmem⟩ := Clause.canonical?_eq_some hcanonical
    exact hadmitted.keeps hlevel (fun literal => (hmem literal).1) hstate

theorem Kept.state_addClause : ctx'.state = ctx.state ∨ ctx'.state = .unsatisfiable := by
  obtain ⟨_, hadmitted⟩ := h.admits hatoms hrun
  rcases hcanonical : clause.canonical? with _ | canonical
  · rw [hcanonical] at hadmitted
    exact Or.inl (hadmitted ▸ rfl)
  · rw [hcanonical] at hadmitted
    exact hadmitted.state

theorem Kept.addClause : Kept (log ++ result.elim [] (logged .problem)) (.start, ctx') := by
  obtain ⟨rfl, hadmitted⟩ := h.admits hatoms hrun
  rcases hcanonical : clause.canonical? with _ | canonical
  · rw [hcanonical] at hadmitted
    subst hadmitted
    simpa using h
  · rw [hcanonical] at hadmitted
    exact h.admitted (level_of_addClause hrun) hadmitted

end clause

theorem Kept.similar_refused {clause : Clause} {fault : Fault} (h : Kept log (.start, ctx))
    (hatoms : ∀ literal ∈ clause, literal.atom < ctx.atoms.count)
    (hrun : (Context.addClause clause).run.run ctx = (.error fault, ctx')) : ctx.Similar ctx' := by
  by_cases hlevel : ctx.trail.level = 0
  · exact (ends_error (addClause_admits h.intact hlevel hatoms) hrun).similar
  · rw [run_addClause_decided hlevel] at hrun
    cases hrun
    exact .refl h.intact.agrees.coherent

/-! ## Searches -/

theorem Kept.of_learnt {clause : Clause} {asserted : Literal} {target : Nat}
    (h : Kept log (phase, ctx)) (hnoted : ctx.Noted) (hassertable : ctx.Assertable clause asserted target)
    (hforced : ctx.ForcedBy clause asserted target)
    (hlearnt : ctx.Learnt clause asserted target ctx' False) :
    Kept (log ++ logged .addition clause) (.propagate asserted, ctx') := by
  have hmarked := hlearnt.marked
  refine ⟨hlearnt.waiting.intact,
    (hlearnt.sound _ h.justified.sound hforced fun _ => False.elim).justified,
    hlearnt.accounted log h.accounted hforced hassertable.highest, fun source literal hunit => ?_,
    hlearnt.waiting⟩
  rcases hlearnt.units source literal hunit with hunit | hclause
  · exact hlearnt.extension.ground literal (hnoted source literal hunit)
  · -- a clause of one literal is learnt on the ground
    have hmem := hassertable.mem
    rw [hclause, List.mem_singleton] at hmem
    have htarget := hassertable.single (by rw [hclause, hmem])
    rw [show ctx'.trail.marked = _ from hmarked, htarget, ← hmem]
    exact List.mem_append_right _ List.mem_cons_self

theorem Kept.learnt {key : ClauseKey} {asserted : Literal} {target : Nat}
    (h : Kept log (.learn key, ctx)) (hlesson : ctx.Lesson key False (some (asserted, target)) ctx') :
    Kept (log ++ ctx.additions (.learn key)) (.propagate asserted, ctx') := by
  obtain ⟨hnoted, hconflict⟩ := h.poised
  obtain ⟨learnt, hanalyse, rfl, rfl, hlevel, hlearnt⟩ := hlesson
  obtain ⟨hassertable, hsound⟩ := Assertable.of_analyse h.intact hconflict hlevel hanalyse
  simp only [additions, hanalyse]
  exact h.of_learnt hnoted hassertable (hsound h.justified).1 hlearnt

theorem Kept.decided {literal : Literal} (h : Kept log (phase, ctx)) (hsettled : ctx.Settled)
    (hopen : ctx.Open literal)
    (hrecord : (do openLevel; record literal none : Step (Context ρ) Unit).run.run ctx =
      (.ok (), ctx')) : Kept log (.propagate literal, ctx') := by
  have hdecided := ensures_ok (record_decision_spec hsettled.waiting hopen) hrecord
  exact ⟨hdecided.waiting.intact, (hdecided.sound _ h.justified.sound).justified,
    hdecided.accounted log h.accounted, hsettled.noted.of_units hdecided.extension hdecided.units,
    hdecided.waiting⟩

theorem Kept.ground {literal : Literal} {rest : List Literal}
    (h : Kept log (.ground (literal :: rest), ctx)) :
    Ensures (propagate literal) ctx (fun result ctx' => ∃ news, ctx.Propagated news ctx' ∧
      ctx'.Intact ∧ match result with
        | none => ctx'.Poised (.ground rest)
        | some key => ctx'.trail.level = 0 ∧ ctx'.InConflict key False) never := by
  obtain ⟨hnoted, ⟨hlevel, hwaiting⟩ | ⟨hwaiting, hrest⟩⟩ := h.poised
  · refine ensures_of_never (propagate_spec rest hwaiting) ?_
    rintro (_ | key) ctx' ⟨news, hpropagated, hresult⟩
    · exact ⟨news, hpropagated, hresult.intact, hpropagated.noted hnoted,
        Or.inl ⟨hpropagated.level.trans hlevel, hresult⟩⟩
    · exact ⟨news, hpropagated, hresult.1, hpropagated.level.trans hlevel, hresult.2⟩
  · -- above the ground a search was resumed, and the literal was propagated before
    refine ensures_of_never (propagate_idle hwaiting (hrest literal List.mem_cons_self)) ?_
    rintro result ctx' ⟨rfl, hpropagated, hwaiting'⟩
    exact ⟨[], hpropagated, hwaiting'.intact, hpropagated.noted hnoted,
      Or.inr ⟨hwaiting', fun other hother => hpropagated.extension.ground other
        (hrest other (List.mem_cons_of_mem _ hother))⟩⟩

/-! ## What moves do -/

variable [RandomSource ρ]

structure OpensLevel (ctx before : Context ρ) (literal : Literal) (ctx' : Context ρ) : Prop where
  decision : decision.run.run ctx.counted = (.ok (some literal), before)
  record : (do openLevel; record literal none : Step (Context ρ) Unit).run.run before = (.ok (), ctx')
  similar : ctx.Similar before
  decided : before.Decided literal ctx' False

/-- What a move does to the context: nothing but count, propagate, open a level for a decision or
learn, and change the state, which tells of a contradiction only if there is one. -/
inductive Effect : Phase × Context ρ → Phase × Context ρ → Prop
  | similar {phase phase' : Phase} {ctx ctx' : Context ρ} {state : SearchState}
    (h : ctx.Similar ctx')
    (hstate : ∀ M, ctx.Sound M → state = .unsatisfiable → ∀ model, ¬ M model) :
    Effect (phase, ctx) (phase', ctx'.withState state)
  | propagated {phase phase' : Phase} {ctx ctx' : Context ρ} {news : List Literal}
    {state : SearchState} (h : ctx.Propagated news ctx')
    (hstate : ∀ M, ctx.Sound M → state = .unsatisfiable → ∀ model, ¬ M model) :
    Effect (phase, ctx) (phase', ctx'.withState state)
  | opened {ctx before ctx' : Context ρ} {literal : Literal} (h : OpensLevel ctx before literal ctx') :
    Effect (.decide, ctx) (.propagate literal, ctx')
  | learnt {ctx ctx' : Context ρ} {key : ClauseKey} {clause : Clause} {asserted : Literal}
    {target : Nat} (hlower : target < ctx.trail.level) (hforced : ctx.ForcedBy clause asserted target)
    (hentailed : ∀ M, ctx.Sound M → ∀ model, M model → Satisfied model clause)
    (h : ctx.Learnt clause asserted target ctx' False) :
    Effect (.learn key, ctx) (.propagate asserted, ctx')

variable [LawfulRandomSource ρ] {before : Context ρ} {literal : Literal}

theorem Kept.opens (h : Kept log (.decide, ctx))
    (hrun : decision.run.run ctx.counted = (.ok (some literal), before))
    (hrecord : (do openLevel; record literal none : Step (Context ρ) Unit).run.run before =
      (.ok (), ctx')) : OpensLevel ctx before literal ctx' := by
  have hcounted := similar_counted h.intact.agrees.coherent
  obtain ⟨hsimilar, hopen⟩ := ensures_ok (decision_spec hcounted.coherent) hrun
  have hsimilar' := hcounted.trans hsimilar
  have hdecided := ensures_ok
    (record_decision_spec (hsimilar'.waiting h.poised.2) (hsimilar.open_iff.2 hopen)) hrecord
  exact ⟨hrun, hrecord, hsimilar', hdecided⟩

theorem Kept.effect {point point' : Phase × Context ρ} (h : Kept log point)
    (hmove : Move point point') : Effect point point' := by
  have hcoherent := h.intact.agrees.coherent
  have hcounted := similar_counted hcoherent
  -- three moves do nothing but propagate
  have hpropagated : ∀ {phase phase' : Phase} {ctx ctx' : Context ρ} {news : List Literal},
      ctx.Propagated news ctx' → Effect (phase, ctx) (phase', ctx') :=
    fun hnews => .propagated hnews fun M hM => (hnews.sound M hM).refuted
  cases hmove with
  | answered | grounded => exact .similar (.refl hcoherent) fun M hM => hM.refuted
  | started => exact .similar (.refl hcoherent) nofun
  | ground hrun =>
    obtain ⟨news, hnews, _⟩ := ensures_ok h.ground hrun
    exact hpropagated hnews
  | groundConflict hrun =>
    obtain ⟨news, hnews, _, hlevel, hconflict⟩ := ensures_ok h.ground hrun
    exact .propagated hnews fun M hM _ => hconflict.no_model hlevel (hnews.sound M hM)
  | timeUp => exact .similar hcounted fun M hM => hM.refuted
  | exhausted hrun =>
    obtain ⟨hsimilar, _⟩ := ensures_ok (decision_spec hcounted.coherent) hrun
    exact .similar (hcounted.trans hsimilar) nofun
  | decided hrun hrecord => exact .opened (h.opens hrun hrecord)
  | propagated hrun | conflict hrun =>
    obtain ⟨news, hnews, _⟩ := ensures_ok (propagate_spec [] h.poised.2) hrun
    exact hpropagated hnews
  | learnt hrun =>
    obtain ⟨learnt, hanalyse, rfl, rfl, hlevel, hlearnt⟩ :=
      ends_ok (learn_lesson h.intact h.poised.2) hrun
    obtain ⟨hassertable, hsound⟩ := Assertable.of_analyse h.intact h.poised.2 hlevel hanalyse
    obtain ⟨hforced, hentailed⟩ := hsound h.justified
    exact .learnt (hassertable.target_lt h.intact.agrees) hforced
      (fun M hM model hmodel => hentailed model (hM.upholds hmodel)) hlearnt
  | refuted hrun =>
    obtain ⟨hlevel, rfl⟩ := ends_ok (learn_lesson h.intact h.poised.2) hrun
    have hconflict := similar_withConflict hcoherent
    exact .similar hconflict fun M hM _ => (hconflict.inConflict h.poised.2).no_model hlevel
      (hconflict.sound hM)

theorem Kept.move {point point' : Phase × Context ρ} (h : Kept log point)
    (hmove : Move point point') : Kept (log ++ point.2.additions point.1) point' := by
  cases hmove with
  | @answered ctx hstate =>
    simp only [additions, List.append_nil]
    refine ⟨h.intact, h.justified, h.accounted, ?_⟩
    rcases hstate with hstate | hstate <;> rw [report, hstate] <;> exact h.poised
  | @started ctx hstate =>
    simp only [additions, List.append_nil]
    have hrest : ctx.AtRest := h.poised
    refine kept_withState h.intact h.justified h.accounted
      ⟨hrest.noted fun hunsat => hstate (Or.inr hunsat), ?_⟩
    -- above the ground the search is resumed, and nothing waits
    rcases hrest with ⟨hlevel, _⟩ | hsettled
    · exact Or.inl ⟨hlevel, (h.intact.waiting_ground hlevel False).withState _⟩
    · exact Or.inr ⟨hsettled.waiting.withState _, fun literal => mem_ground_iff.1⟩
  | @ground ctx ctx' literal rest hrun =>
    simp only [additions, List.append_nil]
    obtain ⟨news, hpropagated, hintact, hpoised⟩ := ensures_ok h.ground hrun
    exact h.propagated hpropagated hintact hpoised
  | @groundConflict ctx ctx' literal rest key hrun =>
    simp only [additions, List.append_nil]
    obtain ⟨news, hpropagated, hintact, hlevel, _⟩ := ensures_ok h.ground hrun
    exact kept_withState hintact (hpropagated.justified h.justified)
      (hpropagated.accounted log h.accounted) (atRest_refuted hlevel)
  | grounded =>
    simp only [additions, List.append_nil]
    obtain ⟨hnoted, ⟨_, hwaiting⟩ | ⟨hwaiting, _⟩⟩ := h.poised
    · exact ⟨h.intact, h.justified, h.accounted, hnoted, hwaiting⟩
    · exact ⟨h.intact, h.justified, h.accounted, hnoted, hwaiting⟩
  -- the search may stop above the ground, with nothing waiting
  | @timeUp ctx hlimit =>
    simp only [additions, List.append_nil]
    have hcounted := similar_counted h.intact.agrees.coherent
    exact h.similar hcounted (hcounted.settled h.poised)
  | @exhausted ctx ctx' hrun =>
    simp only [additions, List.append_nil]
    have hcounted := similar_counted h.intact.agrees.coherent
    obtain ⟨hsimilar, _⟩ := ensures_ok (decision_spec hcounted.coherent) hrun
    have hsimilar' := hcounted.trans hsimilar
    have hkept : Kept log (.decide, ctx') := h.similar hsimilar' (hsimilar'.settled h.poised)
    exact kept_withState hkept.intact hkept.justified hkept.accounted
      (Or.inr (Settled.withState hkept.poised _))
  | @decided ctx ctx₁ ctx' literal hrun hrecord =>
    simp only [additions, List.append_nil]
    have hcounted := similar_counted h.intact.agrees.coherent
    obtain ⟨hsimilar, hopen⟩ := ensures_ok (decision_spec hcounted.coherent) hrun
    have hsimilar' := hcounted.trans hsimilar
    have hkept : Kept log (.decide, ctx₁) := h.similar hsimilar' (hsimilar'.settled h.poised)
    exact hkept.decided hkept.poised (hsimilar.open_iff.2 hopen) hrecord
  | @propagated ctx ctx' literal hrun =>
    simp only [additions, List.append_nil]
    obtain ⟨news, hpropagated, hwaiting⟩ := ensures_ok (propagate_spec [] h.poised.2) hrun
    exact h.propagated hpropagated hwaiting.intact ⟨hpropagated.noted h.poised.1, hwaiting⟩
  | @conflict ctx ctx' literal key hrun =>
    simp only [additions, List.append_nil]
    obtain ⟨news, hpropagated, hintact, hconflict⟩ := ensures_ok (propagate_spec [] h.poised.2) hrun
    exact h.propagated hpropagated hintact ⟨hpropagated.noted h.poised.1, hconflict⟩
  | learnt hrun => exact h.learnt (ends_ok (learn_lesson h.intact h.poised.2) hrun)
  | @refuted ctx ctx' key hrun =>
    obtain ⟨hlevel, rfl⟩ := ends_ok (learn_lesson h.intact h.poised.2) hrun
    have hcounted := similar_withConflict h.intact.agrees.coherent
    simp only [additions, analyse_ground hlevel, List.append_nil]
    exact kept_withState (hcounted.intact h.intact) (hcounted.justified h.justified)
      (hcounted.accounted h.accounted) (atRest_refuted hlevel)

omit [LawfulRandomSource ρ] in
theorem Effect.extends_sound {point point' : Phase × Context ρ} (h : Effect point point') :
    point.2.Extends point'.2 ∧ ∀ M, Sound M point.2 → Sound M point'.2 := by
  cases h with
  | similar hsimilar hstate =>
    exact ⟨hsimilar.extends.trans (extends_withState _ _), fun M hM =>
      (hsimilar.sound hM).withState (hstate M hM)⟩
  | propagated hnews hstate =>
    exact ⟨hnews.extension.trans (extends_withState _ _), fun M hM =>
      (hnews.sound M hM).withState (hstate M hM)⟩
  | opened hopens =>
    exact ⟨hopens.similar.extends.trans hopens.decided.extension, fun M hM =>
      hopens.decided.sound M (hopens.similar.sound hM)⟩
  | learnt _ hforced hentailed hlearnt =>
    exact ⟨hlearnt.extension, fun M hM => hlearnt.sound M hM hforced (hentailed M hM)⟩

theorem Kept.moves {point point' : Phase × Context ρ} (h : Kept log point) (hmoves : Moves point point') :
    (∃ log', Kept log' point') ∧ point.2.Extends point'.2 ∧
      ∀ M, Sound M point.2 → Sound M point'.2 := by
  induction hmoves with
  | refl => exact ⟨⟨log, h⟩, .refl _, fun _ => id⟩
  | tail _ hmove ih =>
    obtain ⟨⟨log', hkept⟩, hextends, hsound⟩ := ih
    obtain ⟨hextends', hsound'⟩ := (hkept.effect hmove).extends_sound
    exact ⟨⟨_, hkept.move hmove⟩, hextends.trans hextends', fun M hM => hsound' M (hsound M hM)⟩

theorem Kept.forgone {fault : Fault} (h : Kept log (phase, ctx))
    (hbreaks : Breaks (phase, ctx) fault ctx') :
    ∃ key target, phase = .learn key ∧ ctx.withConflict.Forgone target fault ctx' False := by
  have hcounted := similar_counted h.intact.agrees.coherent
  cases hbreaks with
  | ground hrun => exact (ensures_error h.ground hrun).elim
  | decision hrun => exact (ensures_error (decision_spec hcounted.coherent) hrun).elim
  | decided hrun hrecord =>
    obtain ⟨hsimilar, hopen⟩ := ensures_ok (decision_spec hcounted.coherent) hrun
    have hwaiting := (hcounted.trans hsimilar).waiting h.poised.2
    have hrecords := record_decision_spec hwaiting (hsimilar.open_iff.2 hopen)
    exact (ensures_error hrecords hrecord).elim
  | propagate hrun => exact (ensures_error (propagate_spec [] h.poised.2) hrun).elim
  | @learn _ _ key _ hrun =>
    -- all literals are justified, so the analysis does not fail
    obtain ⟨target, hforgone⟩ := (ends_error (learn_lesson h.intact h.poised.2) hrun).resolve_left
      fun hstuck => hstuck.before h.justified
    exact ⟨key, target, rfl, hforgone⟩

theorem Kept.broken {point : Phase × Context ρ} {fault : Fault} (h : Kept log point)
    (hbreaks : Breaks point fault ctx') : Kept log (.start, ctx') := by
  obtain ⟨phase, ctx⟩ := point
  obtain ⟨key, target, rfl, _, before, hreturned, hwaiting, hrefused⟩ := h.forgone hbreaks
  have hcounted := similar_withConflict h.intact.agrees.coherent
  have hsimilar := hrefused.similar
  have hnoted : before.Noted := (hcounted.noted h.poised.1).of_units hreturned.extends fun source => by
    rw [hreturned.same.clauses]
  refine ⟨hsimilar.intact hwaiting.intact,
    hsimilar.justified (hreturned.justified (hcounted.justified h.justified)),
    hsimilar.accounted (hreturned.accounted (hcounted.accounted h.accounted)), ?_⟩
  exact Or.inr (hsimilar.settled ⟨hnoted, hwaiting⟩)

theorem Kept.sound_broken {point : Phase × Context ρ} {fault : Fault} {M : (Atom → Bool) → Prop}
    (h : Kept log point) (hbreaks : Breaks point fault ctx') (hsound : Sound M point.2) :
    ctx'.Sound M := by
  obtain ⟨phase, ctx⟩ := point
  obtain ⟨key, target, rfl, _, before, hreturned, _, hrefused⟩ := h.forgone hbreaks
  have hcounted := similar_withConflict h.intact.agrees.coherent
  exact hrefused.similar.sound (hreturned.sound (hcounted.sound hsound))

theorem Session.kept {point : Phase × Context ρ} (h : Session log point) : Kept log point := by
  induction h with
  | empty config random => exact kept_empty config random
  | atom _ hrun ih => exact ih.freshAtom hrun
  | clause _ hatoms hrun ih => exact ih.addClause hatoms hrun
  | move _ hmove ih => exact ih.move hmove
  | again _ ih => exact ⟨ih.intact, ih.justified, ih.accounted, ih.poised.atRest⟩
  | refused _ hatoms hrun ih =>
    have hsimilar := ih.similar_refused hatoms hrun
    exact ih.similar hsimilar (hsimilar.atRest ih.poised)
  | broken _ hbreaks ih => exact ih.broken hbreaks

theorem Kept.propagateGround {literals : List Literal} (h : Kept log (.ground literals, ctx)) :
    Ensures (propagateGround literals) ctx
      (fun consistent ctx' => consistent = true → ctx'.Justified ∧ ctx'.Waiting []) never := by
  induction literals generalizing ctx log with
  | nil =>
    have hdecides := h.move .grounded
    exact fun _ => ⟨hdecides.justified, hdecides.poised.2.of_timely⟩
  | cons literal rest ih =>
    unfold Context.propagateGround
    rw [ensures_bind]
    have hpropagate := ensures_and h.ground (ensures_run (Context.propagate literal) ctx)
    refine ensures_mono hpropagate ?_ fun _ => And.left
    rintro (_ | key) ctx' ⟨_, hrun⟩
    · exact ih (h.move (.ground hrun))
    · exact fun hfalse => absurd hfalse (by simp)

theorem Kept.solve_ne_outOfFuel (h : Kept log (.start, ctx)) :
    Ensures solve ctx (fun _ _ => True) (· ≠ .outOfFuel) :=
  Context.solve_ne_outOfFuel fun hstate => (h.move (.started hstate)).propagateGround

theorem Session.solve (h : Session log (.start, ctx)) :
    ∃ log', Session log' (.start, (solve.run.run ctx).2) := by
  have hends := ends_and h.kept.solve_ne_outOfFuel solve_moves
  refine ends_iff (p := fun ctx' => ∃ log', Session log' (.start, ctx')) |>.1 (ends_mono hends ?_ ?_)
  · rintro report ctx' ⟨_, hmoves⟩
    obtain ⟨log', hlog'⟩ := h.moves hmoves
    exact ⟨log', hlog'.again⟩
  · rintro fault ctx' ⟨hfuel, hbreaksOff⟩
    obtain ⟨last, hmoves, hbreaks⟩ := hbreaksOff.resolve_left hfuel
    obtain ⟨log', hlog'⟩ := h.moves hmoves
    exact ⟨log', hlog'.broken hbreaks⟩

theorem Session.addParts {parts : List Part} (h : Session log (.start, ctx))
    (hparts : Part.Ordered ctx.atoms.count parts)
    (hrun : (addParts parts).run.run ctx = (.ok (), ctx')) :
    ∃ log', Session log' (.start, ctx') := by
  have hsession : Ensures (Context.addParts parts) ctx
      (fun _ ctx' => ∃ log', Session log' (.start, ctx')) anyFault := by
    clear hrun
    -- by induction on the parts, each added at a point of the session
    induction parts generalizing ctx log with
    | nil => exact ⟨log, h⟩
    | cons part rest ih =>
      unfold Context.addParts
      rw [ensures_forM_cons]
      cases part with
      | atom name =>
        rw [addPart, ensures_discard]
        refine ensures_mono (ensures_run (freshAtom name) ctx) ?_ fun _ => id
        intro atom ctx₁ hrun
        obtain ⟨_, hwidened⟩ := ends_ok (freshAtom_spec h.kept.intact.agrees.coherent name) hrun
        refine ih (h.atom hrun) ?_
        rw [hwidened.count]
        exact hparts
      | clause literals =>
        rw [addPart, ensures_discard]
        refine ensures_mono (ensures_run (addClause literals) ctx) ?_ fun _ => id
        intro result ctx₁ hrun
        refine ih (h.clause hparts.1 hrun) ?_
        rw [(h.kept.extends_addClause hparts.1 hrun).count]
        exact hparts.2
  exact ensures_ok hsession hrun

end Satisfiability.Context
