import Satisfiability.Proofs.Context.Answers
import Satisfiability.Proofs.Context.Loading
import Satisfiability.Proofs.Context.Session

/-!
# Contexts used on after a search

A context can be used on after a search: atoms are created, clauses added or read from a file as
long as no decision has been made, and further searches begun (`Reached`), whatever came of the
calls before. A context is found satisfiable by a search only, and then every clause that it keeps
is satisfied (`Orderly`). The state is not reset, so clauses added after that may be false under the
values found; all clauses added before keep a true literal.
-/

namespace Satisfiability.Context

open Search Step Trail

variable {ρ : Type} {ctx ctx' : Context ρ} {clause : Clause} {early late : List Clause}

/-! ## What is known after calls -/

theorem Widened.valuation (h : ctx.Widened ctx') : ctx'.valuation = ctx.valuation := by
  funext atom
  unfold Context.valuation AtomTable.valuation
  rw [h.placement]

theorem Extends.satisfies (h : ctx.Extends ctx') (hagrees : ctx.Agrees) (hagrees' : ctx'.Agrees)
    (hlevel : ctx.trail.level = 0) (hsatisfies : ctx.valuation.satisfies clause = true) :
    ctx'.valuation.satisfies clause = true := by
  obtain ⟨literal, hmem, hholds⟩ := satisfies_iff.1 hsatisfies
  obtain ⟨level, hmark⟩ := hagrees.holds_iff.1 hholds
  have hground : level = 0 := Nat.le_zero.1 (hlevel ▸ level_le hmark)
  subst hground
  have hholds' := hagrees'.holds_iff.2 ⟨0, h.ground literal hmark⟩
  exact satisfies_iff.2 ⟨literal, hmem, hholds'⟩

/-- What is known of the clauses that were added before the first answer. -/
structure Orderly (ctx : Context ρ) (early : List Clause) : Prop where
  atoms : ∀ clause ∈ early, ∀ literal ∈ clause, literal.atom < ctx.atoms.count
  kept : ctx.state ≠ .unsatisfiable → ∀ clause ∈ early, ctx.Keeps clause
  satisfied : ctx.state = .satisfiable → ∀ clause ∈ early, ctx.valuation.satisfies clause = true

section orderly

variable {log : List (Source × Clause)} (h : ctx.Orderly early)

include h

theorem Orderly.of_extends (hextends : ctx.Extends ctx')
    (hstate : ctx'.state ≠ .unsatisfiable → ctx.state ≠ .unsatisfiable)
    (hsatisfied : ctx'.state = .satisfiable →
      ∀ clause ∈ early, ctx'.valuation.satisfies clause = true) : ctx'.Orderly early := by
  refine ⟨?_, fun hrefuted clause hmem => hextends.keeps (h.kept (hstate hrefuted) clause hmem),
    hsatisfied⟩
  rw [hextends.count]
  exact h.atoms

theorem Orderly.after_atom (hcoherent : ctx.atoms.Coherent) (name : String) :
    ((freshAtom name).run.run ctx).2.Orderly early := by
  refine ends_iff (p := fun ctx' => ctx'.Orderly early) |>.1
    (ends_mono (freshAtom_spec hcoherent name) ?_ ?_)
  · rintro _ ctx' ⟨_, hwidened⟩
    refine ⟨?_, ?_, ?_⟩
    · rw [hwidened.count]
      exact fun clause hmem literal hliteral => Nat.lt_succ_of_lt (h.atoms clause hmem literal hliteral)
    · unfold Keeps
      rw [hwidened.state, hwidened.trail, hwidened.clauses]
      exact h.kept
    · rw [hwidened.state, hwidened.valuation]
      exact h.satisfied
  · rintro _ _ ⟨_, _, rfl⟩
    exact h

theorem Orderly.similar (hsimilar : ctx.Similar ctx') : ctx'.Orderly early := by
  have hvaluation : ctx'.valuation = ctx.valuation := hsimilar.placements.valuation
  refine h.of_extends hsimilar.extends (fun hstate => hsimilar.state ▸ hstate) fun hstate => ?_
  rw [hvaluation]
  exact h.satisfied (hsimilar.state ▸ hstate)

section clause

variable {result : Option Clause} (hkept : Kept log (.start, ctx))
  (hatoms : ∀ literal ∈ clause, literal.atom < ctx.atoms.count)
  (hrun : (addClause clause).run.run ctx = (.ok result, ctx'))

include hkept hatoms hrun

theorem Orderly.after_clause : ctx'.Orderly early := by
  have hextends := hkept.extends_addClause hatoms hrun
  have hkept' := hkept.addClause hatoms hrun
  have hstate := hkept.state_addClause hatoms hrun
  refine h.of_extends hextends (fun hrefuted hunsatisfiable => hrefuted ?_) fun hsatisfiable => ?_
  · exact hstate.elim (·.trans hunsatisfiable) id
  · have hbefore : ctx.state = .satisfiable := by
      rcases hstate with heq | heq
      · exact heq ▸ hsatisfiable
      · exact absurd (heq.symm.trans hsatisfiable) (by simp)
    exact fun clause hmem => hextends.satisfies hkept.intact.agrees hkept'.intact.agrees
      (level_of_addClause hrun) (h.satisfied hbefore clause hmem)

theorem Orderly.after_early (hstate : ctx.state ≠ .satisfiable) : ctx'.Orderly (early ++ [clause]) := by
  have hafter := h.after_clause hkept hatoms hrun
  have hcount := (hkept.extends_addClause hatoms hrun).count
  have hkeeps := hkept.keeps_addClause hatoms hrun
  have hnot : ctx'.state ≠ .satisfiable := by
    rcases hkept.state_addClause hatoms hrun with heq | heq
    · exact heq ▸ hstate
    · simp [heq]
  refine ⟨fun other hmem => ?_, fun hrefuted other hmem => ?_, fun hsatisfiable => ?_⟩
  · rcases List.mem_append.1 hmem with hmem | hmem
    · exact hafter.atoms other hmem
    · rw [List.mem_singleton.1 hmem, hcount]
      exact hatoms
  · rcases List.mem_append.1 hmem with hmem | hmem
    · exact hafter.kept hrefuted other hmem
    · rw [List.mem_singleton.1 hmem]
      exact hkeeps hrefuted
  · exact absurd hsatisfiable hnot

end clause

end orderly

/-! ## Searches -/

section searches

variable [RandomSource ρ] [LawfulRandomSource ρ] {log : List (Source × Clause)}
  {point point' : Phase × Context ρ}

/-- The clauses are only ever found satisfiable where every atom has a value and nothing waits. -/
theorem Kept.of_satisfiable (h : Kept log point) (hmove : Move point point')
    (hbefore : point.2.state ≠ .satisfiable) (hafter : point'.2.state = .satisfiable) :
    point'.1 = .finished .satisfiable ∧ point'.2.Waiting [] ∧ point'.2.Total := by
  -- no other move leads to this state, so all others are ruled out
  have hunchanged : point'.2.state = point.2.state → False := fun heq => hbefore (heq ▸ hafter)
  have hcounted := similar_counted h.intact.agrees.coherent
  cases hmove with
  | answered => exact absurd hafter hbefore
  | started | groundConflict => exact nomatch hafter
  | ground hrun =>
    obtain ⟨_, hpropagated, _⟩ := ensures_ok h.ground hrun
    exact (hunchanged hpropagated.state).elim
  | grounded | timeUp => exact absurd hafter hbefore
  | exhausted hrun =>
    obtain ⟨hsimilar, htotal⟩ := ensures_ok (decision_spec hcounted.coherent) hrun
    have hwaiting := (hcounted.trans hsimilar).waiting h.poised.2
    exact ⟨rfl, (hwaiting.withState _).of_timely, hsimilar.total_iff.2 htotal⟩
  | decided hrun hrecord =>
    obtain ⟨_, _, hsimilar, hdecided⟩ := h.opens hrun hrecord
    exact (hunchanged (hdecided.state.trans hsimilar.state)).elim
  | propagated hrun | conflict hrun =>
    obtain ⟨_, hpropagated, _⟩ := ensures_ok (propagate_spec [] h.poised.2) hrun
    exact (hunchanged hpropagated.state).elim
  | learnt hrun =>
    obtain ⟨_, _, _, _, _, hlearnt⟩ := ends_ok (learn_lesson h.intact h.poised.2) hrun
    exact (hunchanged hlearnt.state).elim
  | refuted hrun =>
    obtain ⟨_, rfl⟩ := ends_ok (learn_lesson h.intact h.poised.2) hrun
    exact nomatch hafter

theorem Kept.moves_satisfiable (h : Kept log (.start, ctx)) (hbefore : ctx.state ≠ .satisfiable)
    (hmoves : Moves (.start, ctx) point) (hafter : point.2.state = .satisfiable) :
    point.1 = .finished .satisfiable ∧ point.2.Waiting [] ∧ point.2.Total := by
  induction hmoves with
  | refl => exact absurd hafter hbefore
  | tail hmoves hmove ih =>
    rename_i last point'
    by_cases hlast : last.2.state = .satisfiable
    · -- a search that has ended makes no move
      obtain ⟨hphase, _⟩ := ih hlast
      obtain ⟨phase, ctx'⟩ := last
      obtain rfl : phase = .finished .satisfiable := hphase
      cases hmove
    · obtain ⟨⟨log', hkept⟩, _⟩ := h.moves hmoves
      exact hkept.of_satisfiable hmove hlast hafter

theorem Orderly.after_moves (h : ctx.Orderly early) (hkept : Kept log (.start, ctx))
    (hbefore : ctx.state ≠ .satisfiable) (hrefuted : ctx.state ≠ .unsatisfiable)
    (hmoves : Moves (.start, ctx) point) : point.2.Orderly early := by
  obtain ⟨_, hextends, _⟩ := hkept.moves hmoves
  refine h.of_extends hextends (fun _ => hrefuted) fun hafter clause hmem => ?_
  obtain ⟨_, hwaiting, htotal⟩ := hkept.moves_satisfiable hbefore hmoves hafter
  refine hwaiting.keeps_satisfied htotal ?_ (hextends.keeps (h.kept hrefuted clause hmem))
  rw [hextends.count]
  exact h.atoms clause hmem

theorem Orderly.after_broken {fault : Fault} (h : Orderly point.2 early) (hkept : Kept log point)
    (hstate : point.2.state ≠ .satisfiable) (hbreaks : Breaks point fault ctx') :
    ctx'.Orderly early := by
  obtain ⟨phase, ctx⟩ := point
  obtain ⟨key, target, rfl, _, before, hreturned, _, hrefused⟩ := hkept.forgone hbreaks
  have hcounted := similar_withConflict hkept.intact.agrees.coherent
  have hextends := (hcounted.extends.trans hreturned.extends).trans hrefused.similar.extends
  have hsame : ctx'.state = ctx.state :=
    hrefused.similar.state.trans (hreturned.same.state.trans hcounted.state)
  exact h.of_extends hextends (fun hrefuted => hsame ▸ hrefuted) fun hafter =>
    absurd (hsame ▸ hafter) hstate

theorem Orderly.after_search (h : ctx.Orderly early) (hsession : Session log (.start, ctx)) :
    (solve.run.run ctx).2.Orderly early := by
  have hkept := hsession.kept
  by_cases hstate : ctx.state = .satisfiable ∨ ctx.state = .unsatisfiable
  · -- the answer is known, and the context is left as it is
    have hanswered : Ends solve ctx (fun _ ctx' => ctx' = ctx) fun _ ctx' => ctx' = ctx := by
      simp only [solve, ends_bind, ends_get, if_pos hstate, ends_pure]
    rw [ends_iff.1 hanswered]
    exact h
  · obtain ⟨hbefore, hrefuted⟩ := not_or.1 hstate
    have hends := ends_and (hkept.solve_ne_outOfFuel) solve_moves
    refine ends_iff (p := fun ctx' => ctx'.Orderly early) |>.1 (ends_mono hends ?_ ?_)
    · rintro report ctx' ⟨_, hmoves⟩
      exact h.after_moves hkept hbefore hrefuted hmoves
    · rintro fault ctx' ⟨hfuel, hbreaksOff⟩
      obtain ⟨last, hmoves, hbreaks⟩ := hbreaksOff.resolve_left hfuel
      obtain ⟨⟨log', hkept'⟩, _⟩ := hkept.moves hmoves
      refine (h.after_moves hkept hbefore hrefuted hmoves).after_broken hkept' ?_ hbreaks
      intro hafter
      obtain ⟨hphase, _⟩ := hkept.moves_satisfiable hbefore hmoves hafter
      obtain ⟨phase, ctx₁⟩ := last
      obtain rfl : phase = .finished .satisfiable := hphase
      cases hbreaks

end searches

/-! ## Calls -/

variable [RandomSource ρ]

/-- A context after calls on an empty one, whatever came of each call, with the clauses that were
added before it reported that they are satisfiable, and those added after that. -/
inductive Reached (config : Config) : Context ρ → (early late : List Clause) → Prop
  | empty (random : ρ) : Reached config (empty config random) [] []
  | atom {ctx : Context ρ} {early late : List Clause} (h : Reached config ctx early late)
    (name : String) : Reached config ((freshAtom name).run.run ctx).2 early late
  | early {ctx ctx' : Context ρ} {early late : List Clause} {clause : Clause}
    {result : Option Clause} (h : Reached config ctx early late)
    (hatoms : ∀ literal ∈ clause, literal.atom < ctx.atoms.count)
    (hstate : ctx.state ≠ .satisfiable)
    (hrun : (addClause clause).run.run ctx = (.ok result, ctx')) :
    Reached config ctx' (early ++ [clause]) late
  | late {ctx ctx' : Context ρ} {early late : List Clause} {clause : Clause}
    {result : Option Clause} (h : Reached config ctx early late)
    (hatoms : ∀ literal ∈ clause, literal.atom < ctx.atoms.count)
    (hstate : ctx.state = .satisfiable)
    (hrun : (addClause clause).run.run ctx = (.ok result, ctx')) :
    Reached config ctx' early (late ++ [clause])
  | rejected {ctx ctx' : Context ρ} {early late : List Clause} {clause : Clause} {fault : Fault}
    (h : Reached config ctx early late) (hatoms : ∀ literal ∈ clause, literal.atom < ctx.atoms.count)
    (hrun : (addClause clause).run.run ctx = (.error fault, ctx')) : Reached config ctx' early late
  | search {ctx : Context ρ} {early late : List Clause} (h : Reached config ctx early late) :
    Reached config (solve.run.run ctx).2 early late

/-! ## Clause files -/

theorem Reached.atomNamed {config : Config} (h : Reached config ctx early late) (name : String) :
    Ends (atomNamed name) ctx (fun atom ctx' => Reached config ctx' early late ∧
        atom < ctx'.atoms.count ∧ ctx.atoms.count ≤ ctx'.atoms.count)
      fun _ ctx' => Reached config ctx' early late := by
  have hfresh : Ends (freshAtom name) ctx (fun _ ctx' => Reached config ctx' early late)
      fun _ ctx' => Reached config ctx' early late := ends_iff.2 (h.atom name)
  unfold Context.atomNamed
  simp only [ends_bind, ends_get]
  split
  · rename_i atom hfound
    exact ⟨h, lt_count_of_name? (AtomTable.name?_of_lastNamed? hfound), Nat.le_refl _⟩
  · unfold freshAtom at hfresh ⊢
    simp only [ends_bind, ends_get] at hfresh ⊢
    by_cases hfull : ctx.atoms.isFull
    · rw [if_pos hfull] at hfresh ⊢
      exact hfresh
    simp only [if_neg hfull, ends_bind] at hfresh ⊢
    cases hentry : ctx.atoms.fresh? name with
    | none =>
      rw [hentry] at hfresh
      exact hfresh
    | some result =>
      obtain ⟨atom, table⟩ := result
      rw [hentry] at hfresh
      -- the new atom has the number that was the count
      obtain ⟨rfl, hcount⟩ := AtomTable.of_fresh? hentry
      refine ⟨hfresh, ?_, ?_⟩
      · exact Nat.lt_of_lt_of_eq (Nat.lt_succ_self _) hcount.symm
      · exact Nat.le_of_lt (Nat.lt_of_lt_of_eq (Nat.lt_succ_self _) hcount.symm)

def Further (config : Config) (early late : List Clause) (ctx : Context ρ) : Prop :=
  ∃ more later, Reached config ctx (early ++ more) (late ++ later)

/-- A context in the midst of a clause file, where the clause begun is about atoms of the context.
-/
structure Midway (config : Config) (early late : List Clause) (reading : FileReading)
    (ctx : Context ρ) : Prop where
  further : Further config early late ctx
  atoms : ∀ literal ∈ reading.clause, literal.atom < ctx.atoms.count

section files

variable {config : Config} {reading : FileReading}

theorem Further.addClause (h : Further config early late ctx)
    (hatoms : ∀ literal ∈ clause, literal.atom < ctx.atoms.count) :
    Ends (addClause clause) ctx (fun _ => Further config early late)
      fun _ => Further config early late := by
  obtain ⟨more, later, hreached⟩ := h
  refine ends_mono (ends_run _ ctx) (fun result ctx' hrun => ?_) fun fault ctx' hrun => ?_
  · by_cases hstate : ctx.state = .satisfiable
    · refine ⟨more, later ++ [clause], ?_⟩
      rw [← List.append_assoc]
      exact hreached.late hatoms hstate hrun
    · refine ⟨more ++ [clause], later, ?_⟩
      rw [← List.append_assoc]
      exact hreached.early hatoms hstate hrun
  · exact ⟨more, later, hreached.rejected hatoms hrun⟩

theorem Midway.endClause (h : Midway config early late reading ctx) :
    Ends (endClause reading) ctx (fun reading' => Midway config early late reading')
      fun _ => Further config early late := by
  unfold Context.endClause
  simp only [ends_bind, ends_discard, ends_pure]
  refine ends_mono (h.further.addClause h.atoms) (fun _ ctx' hfurther => ?_) fun _ _ => id
  exact ⟨hfurther, fun literal hmem => absurd hmem List.not_mem_nil⟩

theorem Midway.readItem (h : Midway config early late reading ctx) (line : Nat) (word : List Char) :
    Ends (readItem line reading word) ctx (fun reading' => Midway config early late reading')
      fun _ => Further config early late := by
  unfold Context.readItem
  split
  · exact h.further
  · split
    · exact h.endClause
    · obtain ⟨⟨more, later, hreached⟩, hatoms⟩ := h
      rw [ends_bind]
      refine ends_mono (hreached.atomNamed _) ?_ fun _ ctx' hreached' => ⟨more, later, hreached'⟩
      rintro atom ctx' ⟨hreached', hlt, hle⟩
      refine ⟨⟨more, later, hreached'⟩, fun literal hmem => ?_⟩
      rcases List.mem_append.1 hmem with hmem | hmem
      · exact Nat.lt_of_lt_of_le (hatoms literal hmem) hle
      · rw [List.mem_singleton.1 hmem]
        exact hlt

theorem Midway.readItems (h : Midway config early late reading ctx) (line : Nat)
    (words : List (List Char)) :
    Ends (words.foldlM (Context.readItem line) reading) ctx
      (fun reading' => Midway config early late reading') fun _ => Further config early late := by
  induction words generalizing ctx reading with
  | nil => exact h
  | cons word rest ih =>
    rw [List.foldlM_cons, ends_bind]
    exact ends_mono (h.readItem line word) (fun _ _ hmidway => ih hmidway) fun _ _ => id

theorem Midway.readLines (h : Midway config early late reading ctx) (number : Nat)
    (lines : List (Option String)) :
    Ends (readLines reading number lines) ctx (fun reading' => Midway config early late reading')
      fun _ => Further config early late := by
  induction lines generalizing ctx reading number with
  | nil => exact h
  | cons line rest ih =>
    cases line with
    | none => exact h.further
    | some line =>
      unfold Context.readLines
      dsimp only
      split
      · exact ih h _
      · exact ih h _
      · exact h
      · split
        · exact h.further
        · apply ih
          exact ⟨h.further, h.atoms⟩
      · rw [ends_bind]
        exact ends_mono (h.readItems number _) (fun _ _ hmidway => ih hmidway _) fun _ _ => id

theorem Reached.readClauseFile (h : Reached config ctx early late) (bytes : ByteArray) :
    Further config early late ((readClauseFile bytes).run.run ctx).2 := by
  refine ends_iff.1 ?_
  unfold Context.readClauseFile
  have hmidway : Midway config early late {} ctx :=
    ⟨⟨[], [], by simpa using h⟩, fun literal hmem => absurd hmem List.not_mem_nil⟩
  rw [ends_bind]
  refine ends_mono (hmidway.readLines 1 _) (fun reading ctx' hmidway' => ?_) fun _ _ => id
  split
  · exact hmidway'.further
  · rw [ends_bind]
    exact ends_mono hmidway'.endClause (fun _ _ hmidway'' => hmidway''.further) fun _ _ => id

end files

/-! ## Answers -/

variable [LawfulRandomSource ρ]

theorem Reached.session {config : Config} (h : Reached config ctx early late) :
    ∃ log, Session log (.start, ctx) := by
  induction h with
  | empty random => exact ⟨_, .empty config random⟩
  | @atom ctx _ _ _ name ih =>
    obtain ⟨log, hsession⟩ := ih
    have hfresh := freshAtom_spec hsession.kept.intact.agrees.coherent name
    rcases run_of_ends hfresh with ⟨atom, ctx', hrun, _⟩ | ⟨fault, ctx', hrun, _, _, rfl⟩
    · rw [hrun]
      exact ⟨log, hsession.atom hrun⟩
    · rw [hrun]
      exact ⟨log, hsession⟩
  | early _ hatoms _ hrun ih | late _ hatoms _ hrun ih =>
    obtain ⟨log, hsession⟩ := ih
    exact ⟨_, hsession.clause hatoms hrun⟩
  | rejected _ hatoms hrun ih =>
    obtain ⟨log, hsession⟩ := ih
    exact ⟨log, hsession.refused hatoms hrun⟩
  | search _ ih =>
    obtain ⟨log, hsession⟩ := ih
    exact hsession.solve

theorem Reached.orderly {config : Config} (h : Reached config ctx early late) :
    ctx.Orderly early := by
  induction h with
  | empty random => exact ⟨by simp, by simp, by simp⟩
  | atom h name ih =>
    obtain ⟨log, hsession⟩ := h.session
    exact ih.after_atom hsession.kept.intact.agrees.coherent name
  | early h hatoms hstate hrun ih =>
    obtain ⟨log, hsession⟩ := h.session
    exact ih.after_early hsession.kept hatoms hrun hstate
  | late h hatoms _ hrun ih =>
    obtain ⟨log, hsession⟩ := h.session
    exact ih.after_clause hsession.kept hatoms hrun
  | rejected h hatoms hrun ih =>
    obtain ⟨log, hsession⟩ := h.session
    exact ih.similar (hsession.kept.similar_refused hatoms hrun)
  | search h ih =>
    obtain ⟨log, hsession⟩ := h.session
    exact ih.after_search hsession

/-- A context that reports that its clauses are satisfiable has values that satisfy all those that
were added before it first did so. -/
theorem Reached.early_satisfied {config : Config} (h : Reached config ctx early late)
    (hstate : ctx.state = .satisfiable) :
    ∀ clause ∈ early, ctx.valuation.satisfies clause = true := by
  have horderly := h.orderly
  exact horderly.satisfied hstate

def answered : Context SplitMix :=
  let ctx := ((freshAtom "p").run.run (empty {} ⟨0⟩)).2
  let ctx := ((freshAtom "q").run.run ctx).2
  let ctx := ((addClause [⟨0, true⟩]).run.run ctx).2
  let ctx := ((addClause [⟨1, true⟩]).run.run ctx).2
  (solve.run.run ctx).2

theorem reached_answered : Reached {} answered [[⟨0, true⟩], [⟨1, true⟩]] [] := by
  have hempty : Reached {} (empty {} (⟨0⟩ : SplitMix)) [] [] := .empty _
  have hatoms := (hempty.atom "p").atom "q"
  have hfirst : Reached {} _ [[⟨0, true⟩]] [] := hatoms.early (by decide +kernel)
    (by decide +kernel) (Prod.ext (by decide +kernel : _ = Except.ok (some [⟨0, true⟩])) rfl)
  have hsecond : Reached {} _ [[⟨0, true⟩], [⟨1, true⟩]] [] := hfirst.early (by decide +kernel)
    (by decide +kernel) (Prod.ext (by decide +kernel : _ = Except.ok (some [⟨1, true⟩])) rfl)
  exact hsecond.search

theorem Reached.early_satisfied_answered : answered.state = .satisfiable ∧
    ∀ clause ∈ [[⟨0, true⟩], [⟨1, true⟩]], answered.valuation.satisfies clause = true := by
  have hstate : answered.state = .satisfiable := by decide +kernel
  exact ⟨hstate, Reached.early_satisfied reached_answered hstate⟩

/-- The clauses that are added after the first answer need not be satisfied. A further search gives
the same answer again, since the state is not that of a problem being built. -/
theorem Reached.late_not_satisfied : ∃ ctx : Context SplitMix,
    Reached {} ctx [[⟨0, true⟩], [⟨1, true⟩]] [[⟨0, false⟩, ⟨1, false⟩]] ∧
      ctx.state = .satisfiable ∧ ctx.valuation.satisfies [⟨0, false⟩, ⟨1, false⟩] = false := by
  have hstate : answered.state = .satisfiable := by decide +kernel
  have hlate : Reached {} _ [[⟨0, true⟩], [⟨1, true⟩]] [[⟨0, false⟩, ⟨1, false⟩]] :=
    reached_answered.late (by decide +kernel) hstate
      (Prod.ext (by decide +kernel : _ = Except.ok (some [⟨0, false⟩, ⟨1, false⟩])) rfl)
  exact ⟨_, hlate.search, by decide +kernel, by decide +kernel⟩

end Satisfiability.Context
