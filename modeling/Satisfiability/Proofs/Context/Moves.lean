import Mathlib.Logic.Relation
import Satisfiability.Proofs.Context.Decision

/-!
# The moves of a search

A search goes through phases: it propagates what is true without a decision, makes decisions,
propagates them, and learns from conflicts. `Move` says how one phase follows another, without any
bound on the number of moves. Every search that ends with an answer is a sequence of moves, and one
that ends with a fault breaks off in an operation after some moves (`solve_moves`). So what all
moves keep true is true at every point of a search.
-/

namespace Satisfiability.Context

open Search Step

variable {ρ : Type} {ctx ctx' : Context ρ}

inductive Phase where
  | start
  /-- To propagate these literals, which are true without a decision. -/
  | ground (rest : List Literal)
  | decide
  | propagate (literal : Literal)
  | learn (key : ClauseKey)
  | finished (report : Report)
  deriving DecidableEq

def counted (ctx : Context ρ) : Context ρ :=
  { ctx with counters := { ctx.counters with iterations := ctx.counters.iterations + 1 } }

def withState (ctx : Context ρ) (state : SearchState) : Context ρ := { ctx with state }

def Learning.point (learning : Learning) (ctx : Context ρ) : Phase × Context ρ :=
  (if learning.consistent then .decide else .finished ctx.report, ctx)

/-- The course of a propagation with all that is learnt: the contexts on the way, those among them
whose level is told, which is so after each return for a learnt clause, and where it ends. -/
inductive Course : Phase × Context ρ → (passed told : List (Context ρ)) → Phase × Context ρ → Prop
  | propagated {ctx ctx' : Context ρ} {literal : Literal}
    (hrun : (Context.propagate literal).run.run ctx = (.ok none, ctx')) :
    Course (.propagate literal, ctx) [ctx'] [] (.decide, ctx')
  | conflict {ctx ctx' : Context ρ} {literal : Literal} {key : ClauseKey}
    {passed told : List (Context ρ)} {last : Phase × Context ρ}
    (hrun : (Context.propagate literal).run.run ctx = (.ok (some key), ctx'))
    (hrest : Course (.learn key, ctx') passed told last) :
    Course (.propagate literal, ctx) (ctx' :: passed) told last
  | learnt {ctx ctx' : Context ρ} {key : ClauseKey} {asserted : Literal} {level : Nat}
    {passed told : List (Context ρ)} {last : Phase × Context ρ}
    (hrun : (Context.learn key).run.run ctx = (.ok (some (asserted, level)), ctx'))
    (hrest : Course (.propagate asserted, ctx') passed told last) :
    Course (.learn key, ctx) (ctx' :: passed) (ctx' :: told) last
  | refuted {ctx ctx' : Context ρ} {key : ClauseKey}
    (hrun : (Context.learn key).run.run ctx = (.ok none, ctx')) :
    Course (.learn key, ctx) [ctx'] [] (.finished ctx'.report, ctx')

theorem learn_level (key : ClauseKey) : Ensures (Context.learn key) ctx
    (fun result ctx' => ∀ forced ∈ result, forced.2 = ctx'.trail.level) anyFault := by
  simp only [learn, ensures_bind]
  refine ensures_mono (ensures_run countConflict ctx) (fun _ ctx₁ _ => ?_) fun _ => id
  rw [ensures_get]
  split
  · trivial
  · exact fun _ hforced => nomatch hforced
  · rw [ensures_bind, ensures_discard]
    refine ensures_mono (ensures_run _ ctx₁) (fun _ ctx₂ _ => ?_) fun _ => id
    rintro _ ⟨⟩
    rfl

theorem propagateLearningWithin_course (jumps : List Nat) (budget : Nat) (literal : Literal) :
    Ensures (propagateLearningWithin jumps budget literal) ctx (fun learning ctx' =>
      ∃ passed told, Course (.propagate literal, ctx) passed told (learning.point ctx') ∧
        learning.jumps = jumps ++ told.map (·.trail.level)) anyFault := by
  induction budget generalizing ctx jumps literal with
  | zero => exact trivial
  | succ budget ih =>
    unfold propagateLearningWithin
    rw [ensures_bind]
    refine ensures_mono (ensures_run (Context.propagate literal) ctx) ?_ fun _ => id
    rintro (_ | key) ctx₁ hrun
    · exact ⟨_, _, .propagated hrun, (List.append_nil jumps).symm⟩
    · rw [ensures_bind]
      refine ensures_mono (ensures_and_run (learn_level key)) ?_ fun _ => id
      rintro (_ | ⟨asserted, level⟩) ctx₂ ⟨hlevel, hlearn⟩
      · exact ⟨_, _, .conflict hrun (.refuted hlearn), (List.append_nil jumps).symm⟩
      · refine ensures_mono (ih _ _) ?_ fun _ => id
        rintro learning ctx₃ ⟨passed, told, hcourse, hjumps⟩
        refine ⟨_, _, .conflict hrun (.learnt hlearn hcourse), ?_⟩
        obtain rfl : level = ctx₂.trail.level := hlevel _ rfl
        rw [hjumps, List.append_assoc, List.singleton_append, List.map_cons]

theorem propagateLearning_course (literal : Literal) (jumps : List Nat) :
    Ensures (propagateLearning literal jumps) ctx (fun learning ctx' =>
      ∃ passed told, Course (.propagate literal, ctx) passed told (learning.point ctx') ∧
        learning.jumps = jumps ++ told.map (·.trail.level)) anyFault := by
  simp only [propagateLearning, ensures_bind, ensures_get]
  exact propagateLearningWithin_course jumps _ literal

variable [RandomSource ρ]

/-- One move of a search. There is no clock: where there is a time limit, the time may be up at any
round. -/
inductive Move : Phase × Context ρ → Phase × Context ρ → Prop
  | answered {ctx : Context ρ} (hstate : ctx.state = .satisfiable ∨ ctx.state = .unsatisfiable) :
    Move (.start, ctx) (.finished ctx.report, ctx)
  | started {ctx : Context ρ} (hstate : ¬ (ctx.state = .satisfiable ∨ ctx.state = .unsatisfiable)) :
    Move (.start, ctx) (.ground ctx.trail.ground, ctx.withState .solving)
  | ground {ctx ctx' : Context ρ} {literal : Literal} {rest : List Literal}
    (hrun : (Context.propagate literal).run.run ctx = (.ok none, ctx')) :
    Move (.ground (literal :: rest), ctx) (.ground rest, ctx')
  | groundConflict {ctx ctx' : Context ρ} {literal : Literal} {rest : List Literal}
    {key : ClauseKey} (hrun : (Context.propagate literal).run.run ctx = (.ok (some key), ctx')) :
    Move (.ground (literal :: rest), ctx)
      (.finished .unsatisfiable, ctx'.withState .unsatisfiable)
  | grounded {ctx : Context ρ} : Move (.ground [], ctx) (.decide, ctx)
  | timeUp {ctx : Context ρ} (hlimit : ctx.config.timeLimit ≠ none) :
    Move (.decide, ctx) (.finished .unknown, ctx.counted)
  | exhausted {ctx ctx' : Context ρ}
    (hrun : decision.run.run ctx.counted = (.ok none, ctx')) :
    Move (.decide, ctx) (.finished .satisfiable, ctx'.withState .satisfiable)
  | decided {ctx ctx' ctx'' : Context ρ} {literal : Literal}
    (hrun : decision.run.run ctx.counted = (.ok (some literal), ctx'))
    (hrecord : (do openLevel; record literal none : Step (Context ρ) Unit).run.run ctx' =
      (.ok (), ctx'')) :
    Move (.decide, ctx) (.propagate literal, ctx'')
  | propagated {ctx ctx' : Context ρ} {literal : Literal}
    (hrun : (Context.propagate literal).run.run ctx = (.ok none, ctx')) :
    Move (.propagate literal, ctx) (.decide, ctx')
  | conflict {ctx ctx' : Context ρ} {literal : Literal} {key : ClauseKey}
    (hrun : (Context.propagate literal).run.run ctx = (.ok (some key), ctx')) :
    Move (.propagate literal, ctx) (.learn key, ctx')
  | learnt {ctx ctx' : Context ρ} {key : ClauseKey} {asserted : Literal} {level : Nat}
    (hrun : (Context.learn key).run.run ctx = (.ok (some (asserted, level)), ctx')) :
    Move (.learn key, ctx) (.propagate asserted, ctx')
  | refuted {ctx ctx' : Context ρ} {key : ClauseKey}
    (hrun : (Context.learn key).run.run ctx = (.ok none, ctx')) :
    Move (.learn key, ctx) (.finished ctx'.report, ctx')

abbrev Moves : Phase × Context ρ → Phase × Context ρ → Prop := Relation.ReflTransGen Move

/-- A fault of an operation that a phase calls, with the context that it leaves. -/
inductive Breaks : Phase × Context ρ → Fault → Context ρ → Prop
  | ground {ctx ctx' : Context ρ} {literal : Literal} {rest : List Literal} {fault : Fault}
    (hrun : (Context.propagate literal).run.run ctx = (.error fault, ctx')) :
    Breaks (.ground (literal :: rest), ctx) fault ctx'
  | decision {ctx ctx' : Context ρ} {fault : Fault}
    (hrun : decision.run.run ctx.counted = (.error fault, ctx')) : Breaks (.decide, ctx) fault ctx'
  | decided {ctx ctx' ctx'' : Context ρ} {literal : Literal} {fault : Fault}
    (hrun : decision.run.run ctx.counted = (.ok (some literal), ctx'))
    (hrecord : (do openLevel; record literal none : Step (Context ρ) Unit).run.run ctx' =
      (.error fault, ctx'')) :
    Breaks (.decide, ctx) fault ctx''
  | propagate {ctx ctx' : Context ρ} {literal : Literal} {fault : Fault}
    (hrun : (Context.propagate literal).run.run ctx = (.error fault, ctx')) :
    Breaks (.propagate literal, ctx) fault ctx'
  | learn {ctx ctx' : Context ρ} {key : ClauseKey} {fault : Fault}
    (hrun : (Context.learn key).run.run ctx = (.error fault, ctx')) :
    Breaks (.learn key, ctx) fault ctx'

/-- From a point on a search ends in a fault: the budget was too small, or an operation called after
some moves has the fault. -/
def BreaksOff (point : Phase × Context ρ) (fault : Fault) (ctx' : Context ρ) : Prop :=
  fault = .outOfFuel ∨ ∃ last, Moves point last ∧ Breaks last fault ctx'

variable {point point' : Phase × Context ρ} {fault : Fault}

theorem Breaks.breaksOff (h : Breaks point fault ctx') : BreaksOff point fault ctx' :=
  Or.inr ⟨point, .refl, h⟩

theorem BreaksOff.of_moves (h : BreaksOff point' fault ctx') (hmoves : Moves point point') :
    BreaksOff point fault ctx' :=
  h.imp_right fun ⟨last, hrest, hbreaks⟩ => ⟨last, hmoves.trans hrest, hbreaks⟩

theorem BreaksOff.of_move (h : BreaksOff point' fault ctx') (hmove : Move point point') :
    BreaksOff point fault ctx' := h.of_moves (.single hmove)

theorem move_or_breaks {phase : Phase} (hphase : ∀ report, phase ≠ .finished report) :
    (∃ point, Move (phase, ctx) point) ∨ ∃ fault ctx', Breaks (phase, ctx) fault ctx' := by
  cases phase with
  | start =>
    by_cases hstate : ctx.state = .satisfiable ∨ ctx.state = .unsatisfiable
    · exact Or.inl ⟨_, .answered hstate⟩
    · exact Or.inl ⟨_, .started hstate⟩
  | ground rest =>
    cases rest with
    | nil => exact Or.inl ⟨_, .grounded⟩
    | cons literal rest =>
      rcases hrun : (Context.propagate literal).run.run ctx with ⟨_ | _ | key, ctx'⟩
      · exact Or.inr ⟨_, _, .ground hrun⟩
      · exact Or.inl ⟨_, .ground hrun⟩
      · exact Or.inl ⟨_, .groundConflict hrun⟩
  -- two operations in turn can fail here: the choice of the literal, and its record
  | decide =>
    rcases hrun : decision.run.run ctx.counted with ⟨_ | _ | literal, ctx'⟩
    · exact Or.inr ⟨_, _, .decision hrun⟩
    · exact Or.inl ⟨_, .exhausted hrun⟩
    · rcases hrecord : (do openLevel; record literal none : Step (Context ρ) Unit).run.run ctx' with
        ⟨_ | _, ctx''⟩
      · exact Or.inr ⟨_, _, .decided hrun hrecord⟩
      · exact Or.inl ⟨_, .decided hrun hrecord⟩
  | propagate literal =>
    rcases hrun : (Context.propagate literal).run.run ctx with ⟨_ | _ | key, ctx'⟩
    · exact Or.inr ⟨_, _, .propagate hrun⟩
    · exact Or.inl ⟨_, .propagated hrun⟩
    · exact Or.inl ⟨_, .conflict hrun⟩
  | learn key =>
    rcases hrun : (Context.learn key).run.run ctx with ⟨_ | _ | ⟨asserted, level⟩, ctx'⟩
    · exact Or.inr ⟨_, _, .learn hrun⟩
    · exact Or.inl ⟨_, .refuted hrun⟩
    · exact Or.inl ⟨_, .learnt hrun⟩
  | finished report => exact absurd rfl (hphase report)

theorem propagateGround_moves (literals : List Literal) :
    Ends (propagateGround literals) ctx (fun consistent ctx' =>
      Moves (.ground literals, ctx) (if consistent then .decide else .finished ctx'.report, ctx'))
      fun fault ctx' => BreaksOff (.ground literals, ctx) fault ctx' := by
  induction literals generalizing ctx with
  | nil => exact .single .grounded
  | cons literal rest ih =>
    unfold propagateGround
    rw [ends_bind]
    refine ends_mono (ends_run (Context.propagate literal) ctx) ?_ fun _ _ hrun =>
      (Breaks.ground hrun).breaksOff
    rintro (_ | key) ctx₁ hrun
    · refine ends_mono ih ?_ fun _ _ hbreaks => hbreaks.of_move (.ground hrun)
      exact fun _ _ hmoves => .head (.ground hrun) hmoves
    · exact .single (.groundConflict hrun)

theorem Course.moves {point last : Phase × Context ρ} {passed told : List (Context ρ)}
    (h : Course point passed told last) : Moves point last := by
  induction h with
  | propagated hrun => exact .single (.propagated hrun)
  | conflict hrun _ ih => exact .head (.conflict hrun) ih
  | learnt hrun _ ih => exact .head (.learnt hrun) ih
  | refuted hrun => exact .single (.refuted hrun)

theorem propagateLearningWithin_breaksOff (jumps : List Nat) (budget : Nat) (literal : Literal) :
    Ends (propagateLearningWithin jumps budget literal) ctx (fun _ _ => True)
      fun fault ctx' => BreaksOff (.propagate literal, ctx) fault ctx' := by
  induction budget generalizing ctx jumps literal with
  | zero => exact Or.inl rfl
  | succ budget ih =>
    unfold propagateLearningWithin
    rw [ends_bind]
    refine ends_mono (ends_run (Context.propagate literal) ctx) ?_ fun _ _ hrun =>
      (Breaks.propagate hrun).breaksOff
    rintro (_ | key) ctx₁ hrun
    · trivial
    · rw [ends_bind]
      refine ends_mono (ends_run (Context.learn key) ctx₁) ?_ fun _ _ hlearn =>
        (Breaks.learn hlearn).breaksOff.of_move (.conflict hrun)
      rintro (_ | ⟨asserted, level⟩) ctx₂ hlearn
      · trivial
      · exact ends_mono (ih _ _) (fun _ _ => id) fun _ _ hbreaks =>
          (hbreaks.of_move (.learnt hlearn)).of_move (.conflict hrun)

theorem propagateLearning_moves (literal : Literal) (jumps : List Nat) :
    Ends (propagateLearning literal jumps) ctx (fun learning ctx' =>
      Moves (.propagate literal, ctx) (learning.point ctx'))
      fun fault ctx' => BreaksOff (.propagate literal, ctx) fault ctx' := by
  have hbreaks : Ends (propagateLearning literal jumps) ctx (fun _ _ => True)
      fun fault ctx' => BreaksOff (.propagate literal, ctx) fault ctx' := by
    simp only [propagateLearning, ends_bind, ends_get]
    exact propagateLearningWithin_breaksOff jumps _ literal
  refine ends_mono (ends_and (propagateLearning_course literal jumps) hbreaks) ?_ fun _ _ => And.right
  rintro learning ctx' ⟨⟨_, _, hcourse, _⟩, _⟩
  exact hcourse.moves

theorem round_moves : Ends round ctx (fun answer ctx' =>
    Moves (.decide, ctx) (match answer with | none => .decide | some report => .finished report, ctx'))
    fun fault ctx' => BreaksOff (.decide, ctx) fault ctx' := by
  simp only [round, ends_bind, ends_modify, ends_get]
  split
  · rename_i htime
    refine .single (.timeUp fun hlimit => ?_)
    have htime' : ctx.timeIsUp = true := htime
    simp [timeIsUp, hlimit] at htime'
  · have hcounted := ends_run decision ctx.counted
    rw [ends_bind]
    refine ends_mono hcounted ?_ fun _ _ hrun => (Breaks.decision hrun).breaksOff
    rintro (_ | literal) ctx₁ hrun
    · exact .single (.exhausted hrun)
    · have hrecord := ends_run (do openLevel; record literal none : Step (Context ρ) Unit) ctx₁
      rw [ends_bind] at hrecord
      simp only [ends_bind]
      refine ends_mono hrecord ?_ fun _ _ hrun₁ => (Breaks.decided hrun hrun₁).breaksOff
      intro _ ctx₂ hrun₁
      refine ends_mono hrun₁ ?_ fun _ _ hrun₂ => (Breaks.decided hrun hrun₂).breaksOff
      intro _ ctx₃ hrun₂
      have hdecided : Move (.decide, ctx) (.propagate literal, ctx₃) :=
        .decided hrun hrun₂
      refine ends_mono (propagateLearning_moves literal []) ?_ fun _ _ hbreaks =>
        hbreaks.of_move hdecided
      intro learning ctx₄ hmoves
      -- after a conflict on the ground level the round has an answer
      unfold Learning.point at hmoves
      by_cases hconsistent : learning.consistent
      · rw [if_pos hconsistent] at hmoves ⊢
        exact .head hdecided hmoves
      · rw [if_neg hconsistent] at hmoves ⊢
        exact .head hdecided hmoves

theorem rounds_moves (budget : Nat) : Ends (rounds budget) ctx (fun report ctx' =>
    Moves (.decide, ctx) (.finished report, ctx'))
    fun fault ctx' => BreaksOff (.decide, ctx) fault ctx' := by
  induction budget generalizing ctx with
  | zero => exact Or.inl rfl
  | succ budget ih =>
    unfold rounds
    rw [ends_bind]
    refine ends_mono round_moves ?_ fun _ _ => id
    rintro (_ | report) ctx₁ hmoves
    · refine ends_mono ih ?_ fun _ _ hbreaks => hbreaks.of_moves hmoves
      exact fun _ _ hrest => hmoves.trans hrest
    · exact hmoves

/-- A search that ends with an answer is a sequence of moves, and one that ends with a fault breaks
off after some moves. -/
theorem solve_moves : Ends solve ctx (fun report ctx' =>
    Moves (.start, ctx) (.finished report, ctx'))
    fun fault ctx' => BreaksOff (.start, ctx) fault ctx' := by
  simp only [solve, ends_bind, ends_get]
  split
  · rename_i hstate
    exact .single (.answered hstate)
  · rename_i hstate
    have hunsatisfiable : ctx.state ≠ .unsatisfiable := fun heq => hstate (Or.inr heq)
    simp only [start, ends_bind, ends_get, if_neg hunsatisfiable, setState, ends_modify]
    have hground := @propagateGround_moves ρ (ctx.withState .solving) _ ctx.trail.ground
    refine ends_mono hground ?_ fun _ _ hbreaks => hbreaks.of_move (.started hstate)
    intro consistent ctx₁ hmoves
    have hstarted := Relation.ReflTransGen.head (Move.started hstate) hmoves
    cases consistent with
    | true =>
      refine ends_mono (rounds_moves _) ?_ fun _ _ hbreaks => hbreaks.of_moves hstarted
      exact fun _ _ hrest => hstarted.trans hrest
    | false => exact hstarted

theorem moves_of_solve {report : Report} (hrun : solve.run.run ctx = (.ok report, ctx')) :
    Moves (.start, ctx) (.finished report, ctx') := by
  have hmoves := ends_ok solve_moves hrun
  exact hmoves

end Satisfiability.Context
