import Satisfiability.Proofs.Context.Moves

/-!
# What the moves of a search keep

At each point of a search the context is sound and extends the one at the start, and it is in order
for the phase: only what the phase is about waits to be propagated (`Standing`). Each move keeps
this and lowers a measure, in which the rank of the trail counts most (`Standing.move`). A search
that is not finished has a move, unless no number is left for a clause that it is to learn, which is
the only fault of the operations it calls (`Standing.breaks`). The whole search ends within its
budget (`solve_spec`).
-/

namespace Satisfiability.Context

open Search Step

variable {ρ : Type} {ctx ctx' start : Context ρ} {M : (Atom → Bool) → Prop} {literal : Literal}
  {key : ClauseKey} {late : Prop}

def InOrder (ctx : Context ρ) : Phase → Prop
  | .start => ctx.Waiting ctx.trail.ground ∧ ctx.trail.level = 0 ∧ ctx.state ≠ .satisfiable
  | .ground rest => ctx.Waiting rest ∧ ctx.trail.level = 0
  | .decide => ctx.Waiting []
  | .propagate literal => ctx.Waiting [literal]
  | .learn key => ctx.Intact ∧ ctx.InConflict key
  | .finished .satisfiable => ctx.Waiting [] ∧ ctx.Total
  | .finished .unsatisfiable => ctx.state = .unsatisfiable
  | .finished .unknown => ctx.config.timeLimit ≠ none

structure Standing (start : Context ρ) (M : (Atom → Bool) → Prop) (point : Phase × Context ρ) :
    Prop where
  extension : start.Extends point.2
  sound : Sound M point.2
  inOrder : point.2.InOrder point.1

/-- How much is left to be done: above all the rank can rise only so far. -/
def measure (point : Phase × Context ρ) : Nat :=
  match point.1 with
  | .start => 3 * roundBudget point.2.atoms.count + point.2.trail.ground.length + 3
  | .ground rest => 3 * roundBudget point.2.atoms.count + rest.length + 2
  | .decide => 3 * point.2.left + 1
  | .propagate _ => 3 * point.2.left + 3
  | .learn _ => 3 * point.2.left + 2
  | .finished _ => 0

/-! ## States -/

theorem extends_withState (ctx : Context ρ) (state : SearchState) :
    ctx.Extends (ctx.withState state) :=
  ⟨rfl, rfl, fun _ => rfl, .refl _, fun _ => id⟩

theorem Intact.withState (h : ctx.Intact) (state : SearchState) : (ctx.withState state).Intact :=
  ⟨⟨h.agrees.coherent, h.agrees.placed, h.agrees.stored⟩, h.exact, h.known, h.filled⟩

theorem Waiting.withState {waiting : List Literal} (h : ctx.Waiting waiting late)
    (state : SearchState) : (ctx.withState state).Waiting waiting late :=
  ⟨h.intact.withState state, h.held, h.guarded⟩

theorem Sound.withState (h : ctx.Sound M) {state : SearchState}
    (hstate : state = .unsatisfiable → ∀ model, ¬ M model) : (ctx.withState state).Sound M :=
  ⟨h.justified, h.entailed, hstate⟩

theorem similar_counted (hcoherent : ctx.atoms.Coherent) : ctx.Similar ctx.counted :=
  ⟨rfl, rfl, rfl, rfl, rfl, rfl, hcoherent, .refl _⟩

theorem InConflict.no_model (h : ctx.InConflict key late) (hlevel : ctx.trail.level = 0)
    (hsound : ctx.Sound M) : ∀ model, ¬ M model :=
  (h.sound_unsatisfiable hlevel hsound).refuted rfl

theorem Exhausted.of_fails {fault : Fault} (hsound : ctx.Sound M)
    (hfails : ctx.Stuck ctx' ∨ ctx.Exhausted fault ctx') : ctx.Exhausted fault ctx' :=
  hfails.resolve_left fun hstuck => hstuck.before hsound.justified

/-! ## Moves -/

variable [RandomSource ρ] [LawfulRandomSource ρ]

/-- Each move keeps what is true at the points of a search, and less is left to be done after it. -/
theorem Standing.move {point point' : Phase × Context ρ} (h : Standing start M point)
    (hmove : Move point point') : Standing start M point' ∧ measure point' < measure point := by
  obtain ⟨hextends, hsound, horder⟩ := h
  -- what an operation leaves is known from its lemma; the phase or the rank goes on
  cases hmove with
  | @answered ctx hstate =>
    obtain ⟨_, _, hnot⟩ := horder
    have hunsatisfiable : ctx.state = .unsatisfiable := hstate.resolve_left hnot
    refine ⟨⟨hextends, hsound, ?_⟩, by simp only [measure]; omega⟩
    rw [report, hunsatisfiable]
    exact hunsatisfiable
  | @started ctx hstate =>
    obtain ⟨hwaiting, hlevel, _⟩ := horder
    refine ⟨⟨hextends.trans (extends_withState ctx .solving), hsound.withState (by simp),
      hwaiting.withState .solving, hlevel⟩, ?_⟩
    simp only [measure, withState]
    omega
  | @ground ctx ctx' literal rest hrun =>
    obtain ⟨hwaiting, hlevel⟩ := horder
    obtain ⟨news, hpropagated, hwaiting'⟩ := ensures_ok (propagate_spec rest hwaiting) hrun
    refine ⟨⟨hextends.trans hpropagated.extension, hpropagated.sound M hsound, hwaiting', ?_⟩, ?_⟩
    · exact hpropagated.level.trans hlevel
    · simp only [measure, hpropagated.extension.count, List.length_cons]
      omega
  | @groundConflict ctx ctx' literal rest key hrun =>
    obtain ⟨hwaiting, hlevel⟩ := horder
    obtain ⟨news, hpropagated, hintact, hconflict⟩ :=
      ensures_ok (propagate_spec rest hwaiting) hrun
    have hsound' := hpropagated.sound M hsound
    -- a conflict on the ground level leaves no model
    have hnone := hconflict.no_model (hpropagated.level.trans hlevel) hsound'
    exact ⟨⟨(hextends.trans hpropagated.extension).trans (extends_withState _ _),
      hsound'.withState fun _ => hnone, rfl⟩, by simp only [measure]; omega⟩
  | @grounded ctx =>
    have hleft := left_le_roundBudget ctx
    exact ⟨⟨hextends, hsound, horder.1⟩, by simp only [measure, List.length_nil]; omega⟩
  | @timeUp ctx hlimit =>
    have hcounted := similar_counted horder.intact.agrees.coherent
    exact ⟨⟨hextends.trans hcounted.extends, hcounted.sound hsound, hlimit⟩, by
      simp only [measure]; omega⟩
  | @exhausted ctx ctx' hrun =>
    have hcounted := similar_counted horder.intact.agrees.coherent
    obtain ⟨hsimilar, htotal⟩ := ensures_ok (decision_spec hcounted.coherent) hrun
    have hsimilar' := hcounted.trans hsimilar
    refine ⟨⟨(hextends.trans hsimilar'.extends).trans (extends_withState _ _),
      (hsimilar'.sound hsound).withState (by simp), ?_, ?_⟩, by simp only [measure]; omega⟩
    · exact (hsimilar'.waiting horder).withState .satisfiable
    · exact hsimilar.total_iff.2 htotal
  | @decided ctx ctx₁ ctx' literal hrun hrecord =>
    have hcounted := similar_counted horder.intact.agrees.coherent
    obtain ⟨hsimilar, hopen⟩ := ensures_ok (decision_spec hcounted.coherent) hrun
    have hsimilar' := hcounted.trans hsimilar
    have hdecided := ensures_ok
      (record_decision_spec (hsimilar'.waiting horder) (hsimilar.open_iff.2 hopen)) hrecord
    refine ⟨⟨(hextends.trans hsimilar'.extends).trans hdecided.extension,
      hdecided.sound M (hsimilar'.sound hsound), hdecided.waiting⟩, ?_⟩
    have hleft := hdecided.left_lt
    rw [hsimilar'.left] at hleft
    simp only [measure] at hleft ⊢
    omega
  | @propagated ctx ctx' literal hrun =>
    obtain ⟨news, hpropagated, hwaiting⟩ := ensures_ok (propagate_spec [] horder) hrun
    refine ⟨⟨hextends.trans hpropagated.extension, hpropagated.sound M hsound, hwaiting⟩, ?_⟩
    have hleft := hpropagated.left_le
    simp only [measure] at hleft ⊢
    omega
  | @conflict ctx ctx' literal key hrun =>
    obtain ⟨news, hpropagated, hconflict⟩ := ensures_ok (propagate_spec [] horder) hrun
    refine ⟨⟨hextends.trans hpropagated.extension, hpropagated.sound M hsound, hconflict⟩, ?_⟩
    have hleft := hpropagated.left_le
    simp only [measure] at hleft ⊢
    omega
  | @learnt ctx ctx' key asserted level hrun =>
    obtain ⟨hintact, hconflict⟩ := horder
    obtain ⟨hsound', hlevel, clause, hlearnt⟩ := ends_ok (learn_ends hintact hconflict) hrun
    refine ⟨⟨hextends.trans hlearnt.extension, hsound' M hsound, hlearnt.waiting⟩, ?_⟩
    have hleft := (hlearnt.continued hlevel hsound').left_lt hintact hlearnt.waiting
      (hlearnt.level ▸ hlevel)
    simp only [measure] at hleft ⊢
    omega
  | @refuted ctx ctx' key hrun =>
    obtain ⟨hintact, hconflict⟩ := horder
    obtain ⟨hsound', hextends', hstate⟩ := ends_ok (learn_ends hintact hconflict) hrun
    refine ⟨⟨hextends.trans hextends', hsound' M hsound, ?_⟩, by simp only [measure]; omega⟩
    rw [report, hstate]
    exact hstate

theorem Standing.moves {point point' : Phase × Context ρ} (h : Standing start M point)
    (hmoves : Moves point point') : Standing start M point' := by
  induction hmoves with
  | refl => exact h
  | tail _ hmove ih => exact (ih.move hmove).1

/-- The only fault of an operation called is that no number is left for a clause to be learnt. -/
theorem Standing.breaks {phase : Phase} {fault : Fault} (h : Standing start M (phase, ctx))
    (hbreaks : Breaks (phase, ctx) fault ctx') :
    (∃ key, phase = .learn key) ∧ ctx.Exhausted fault ctx' := by
  obtain ⟨_, hsound, horder⟩ := h
  cases hbreaks with
  | ground hrun => exact (ensures_error (propagate_spec _ horder.1) hrun).elim
  | decision hrun =>
    have hcounted := similar_counted horder.intact.agrees.coherent
    exact (ensures_error (decision_spec hcounted.coherent) hrun).elim
  | decided hrun hrecord =>
    have hcounted := similar_counted horder.intact.agrees.coherent
    obtain ⟨hsimilar, hopen⟩ := ensures_ok (decision_spec hcounted.coherent) hrun
    have hwaiting := (hcounted.trans hsimilar).waiting horder
    have hrecords := record_decision_spec hwaiting (hsimilar.open_iff.2 hopen)
    exact (ensures_error hrecords hrecord).elim
  | propagate hrun => exact (ensures_error (propagate_spec [] horder) hrun).elim
  | @learn _ _ key _ hrun =>
    exact ⟨⟨key, rfl⟩, .of_fails hsound (ends_error (learn_ends horder.1 horder.2) hrun)⟩

/-- A search that is not finished goes on, as long as there are numbers for what it learns. -/
theorem Standing.progress {phase : Phase} (h : Standing start M (phase, ctx))
    (hphase : ∀ report, phase ≠ .finished report) : (∃ point, Move (phase, ctx) point) ∨
      ∃ fault ctx', Breaks (phase, ctx) fault ctx' ∧ ctx.Exhausted fault ctx' := by
  refine (move_or_breaks hphase).imp_right ?_
  rintro ⟨fault, ctx', hbreaks⟩
  exact ⟨fault, ctx', hbreaks, (h.breaks hbreaks).2⟩

/-! ## The whole search -/

theorem propagateGround_spec (literals : List Literal)
    (h : Standing start M (.ground literals, ctx)) :
    Ensures (propagateGround literals) ctx
      (fun consistent ctx' => consistent = true → Standing start M (.decide, ctx')) never := by
  induction literals generalizing ctx with
  | nil => exact fun _ => (h.move .grounded).1
  | cons literal rest ih =>
    unfold propagateGround
    rw [ensures_bind]
    have hpropagate := ensures_and (propagate_spec rest h.inOrder.1)
      (ensures_run (Context.propagate literal) ctx)
    refine ensures_mono hpropagate ?_ fun _ => And.left
    rintro (_ | key) ctx' ⟨_, hrun⟩
    · exact ih (h.move (.ground hrun)).1
    · exact fun hfalse => absurd hfalse (by simp)

theorem round_spec (h : Standing start M (.decide, ctx)) :
    Ensures round ctx (fun answer ctx' => answer = none →
      Standing start M (.decide, ctx') ∧ ctx'.left < ctx.left) (· ≠ .outOfFuel) := by
  obtain ⟨hextends, hsound, hwaiting⟩ := h
  have hcounted := similar_counted hwaiting.intact.agrees.coherent
  simp only [round, ensures_bind, ensures_modify, ensures_get]
  split
  · exact fun hfalse => absurd hfalse (by simp)
  · rw [ensures_bind]
    refine ensures_of_never (decision_spec hcounted.coherent) ?_
    rintro (_ | literal) ctx₁ ⟨hsimilar, hresult⟩
    · exact fun hfalse => absurd hfalse (by simp)
    · have hsimilar' := hcounted.trans hsimilar
      have hrecord := record_decision_spec (hsimilar'.waiting hwaiting) (hsimilar.open_iff.2 hresult)
      rw [ensures_bind] at hrecord
      simp only [ensures_bind]
      refine ensures_of_never hrecord ?_
      intro _ ctx₂ hrecord'
      refine ensures_of_never hrecord' ?_
      intro _ ctx₃ hdecided
      have hsound' := hdecided.sound M (hsimilar'.sound hsound)
      have hleft := hdecided.left_lt
      rw [hsimilar'.left] at hleft
      -- the decision leaves less to be done, and learning leaves no more
      have hlearning := propagateLearning_ends ctx₃.trail.level [] hdecided.waiting
        (Nat.le_refl _) (by simp)
      refine ensures_mono (ensures_of_ends hlearning fun fault _ hfails =>
        (Exhausted.of_fails hsound' hfails).ne_outOfFuel) ?_ fun _ => id
      rintro ⟨consistent, jumps⟩ ctx₄ houtcome
      cases consistent with
      | false => exact fun hfalse => absurd hfalse (by simp)
      | true =>
        obtain ⟨hcontinued, hwaiting', _⟩ := houtcome
        have hleft' := hcontinued.left_le hdecided.waiting.intact hwaiting'
        refine fun _ => ⟨⟨?_, hcontinued.sound M hsound', hwaiting'⟩, by simp only at hleft ⊢; omega⟩
        exact ((hextends.trans hsimilar'.extends).trans hdecided.extension).trans
          hcontinued.extension

theorem rounds_spec (budget : Nat) (h : Standing start M (.decide, ctx))
    (hbudget : ctx.left ≤ budget) :
    Ensures (rounds budget) ctx (fun _ _ => True) (· ≠ .outOfFuel) := by
  induction budget generalizing ctx with
  | zero =>
    have := h.inOrder.left_pos
    simp only at this
    omega
  | succ budget ih =>
    unfold rounds
    rw [ensures_bind]
    refine ensures_mono (round_spec h) ?_ fun _ => id
    rintro (_ | report) ctx' hround
    · obtain ⟨hstanding, hleft⟩ := hround rfl
      exact ih hstanding (by omega)
    · exact trivial

/-- A search ends within its budget, if nothing waits once the ground is propagated. -/
theorem solve_ne_outOfFuel
    (hground : ¬ (ctx.state = .satisfiable ∨ ctx.state = .unsatisfiable) →
      Ensures (propagateGround ctx.trail.ground) (ctx.withState .solving)
        (fun consistent ctx' => consistent = true → ctx'.Justified ∧ ctx'.Waiting []) never) :
    Ensures solve ctx (fun _ _ => True) (· ≠ .outOfFuel) := by
  simp only [solve, ensures_bind, ensures_get]
  split
  · exact trivial
  · rename_i hstate
    have hunsatisfiable : ctx.state ≠ .unsatisfiable := fun heq => hstate (Or.inr heq)
    simp only [Context.start, ensures_bind, ensures_get, if_neg hunsatisfiable, setState,
      ensures_modify]
    refine ensures_of_never (hground hstate) ?_
    intro consistent ctx₁ hpropagated
    cases consistent with
    | false => exact trivial
    | true =>
      obtain ⟨hjustified, hwaiting⟩ := hpropagated rfl
      have hstanding : Standing ctx₁ (fun _ => False) (.decide, ctx₁) :=
        ⟨.refl ctx₁, hjustified.sound, hwaiting⟩
      exact rounds_spec _ hstanding (left_le_roundBudget ctx₁)

/-- A search has an answer, unless no number is left for a clause that it is to learn. -/
theorem solve_spec (h : Standing start M (.start, ctx)) :
    Ends solve ctx (fun report ctx' => Moves (.start, ctx) (.finished report, ctx'))
      fun fault ctx' => ∃ key ctx₁, Moves (.start, ctx) (.learn key, ctx₁) ∧
        (learn key).run.run ctx₁ = (.error fault, ctx') ∧ ctx₁.Exhausted fault ctx' := by
  have hbudget : Ensures solve ctx (fun _ _ => True) (· ≠ .outOfFuel) := by
    refine solve_ne_outOfFuel fun hstate => ?_
    refine ensures_of_never (propagateGround_spec _ (h.move (.started hstate)).1) ?_
    intro consistent ctx₁ hground hconsistent
    obtain ⟨_, hsound, hwaiting⟩ := hground hconsistent
    exact ⟨hsound.justified, hwaiting⟩
  refine ends_mono (ends_and hbudget solve_moves) (fun _ _ => And.right) ?_
  rintro fault ctx' ⟨hfuel, hbreaksOff⟩
  obtain ⟨⟨phase, ctx₁⟩, hmoves, hbreaks⟩ := hbreaksOff.resolve_left hfuel
  obtain ⟨⟨key, rfl⟩, hexhausted⟩ := (h.moves hmoves).breaks hbreaks
  cases hbreaks with
  | learn hrun => exact ⟨key, ctx₁, hmoves, hrun, hexhausted⟩

end Satisfiability.Context
