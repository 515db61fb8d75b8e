import Mathlib.Logic.Relation
import Satisfiability.Proofs.Context.Propagation

/-!
# The steps of a propagation

A propagation takes literals from its queue and examines the clauses that watch their negations, one
after another (`Work`). Every propagation that ends is a sequence of such steps (`propagate_works`),
so what each step keeps is true wherever a literal is made true on the way (`Work.ready`).
-/

namespace Satisfiability.Context

open Search Step

variable {ρ : Type} {ctx ctx' : Context ρ} {later : List Literal} {late : Prop}

inductive Task where
  | queue (literals : List Literal)
  /-- To examine clauses taken from those that watch a literal now false, while others wait. -/
  | examine (waiting : List Literal) (broken : Literal) (kept : List ClauseKey)
    (implied : List Literal) (taken : List ClauseKey)
  | done (result : Option ClauseKey)

inductive Work : Task × Context ρ → Task × Context ρ → Prop
  | taken {ctx : Context ρ} {literal : Literal} {queue : List Literal} :
    Work (.queue (literal :: queue), ctx)
      (.examine queue (-literal) [] [] (ctx.watches.take (-literal)).1,
        { ctx with watches := (ctx.watches.take (-literal)).2 })
  | alreadyTrue {ctx : Context ρ} {waiting implied : List Literal} {broken : Literal}
    {key : ClauseKey} {kept taken : List ClauseKey} {clause clause' : WatchedClause}
    (hclause : ctx.clauses.get? key = some clause)
    (hrewatch : clause.rewatch? broken ctx.valuation = some (.alreadyTrue, clause')) :
    Work (.examine waiting broken kept implied (key :: taken), ctx)
      (.examine waiting broken (kept ++ [key]) implied taken, ctx.withClause key clause')
  | found {ctx : Context ρ} {waiting implied : List Literal} {broken literal : Literal}
    {key : ClauseKey} {kept taken : List ClauseKey} {clause clause' : WatchedClause}
    (hclause : ctx.clauses.get? key = some clause)
    (hrewatch : clause.rewatch? broken ctx.valuation = some (.found literal, clause')) :
    Work (.examine waiting broken kept implied (key :: taken), ctx)
      (.examine waiting broken kept implied taken,
        { ctx.withClause key clause' with watches := ctx.watches.watch key literal })
  | unit {ctx ctx' : Context ρ} {waiting implied : List Literal} {broken literal : Literal}
    {key : ClauseKey} {kept taken : List ClauseKey} {clause clause' : WatchedClause}
    (hclause : ctx.clauses.get? key = some clause)
    (hrewatch : clause.rewatch? broken ctx.valuation = some (.unit literal, clause'))
    (hrecord : (record literal (some key)).run.run (ctx.withClause key clause') = (.ok (), ctx')) :
    Work (.examine waiting broken kept implied (key :: taken), ctx)
      (.examine waiting broken (kept ++ [key]) (implied ++ [literal]) taken, ctx')
  | conflict {ctx : Context ρ} {waiting implied : List Literal} {broken : Literal}
    {key : ClauseKey} {kept taken : List ClauseKey} {clause clause' : WatchedClause}
    (hclause : ctx.clauses.get? key = some clause)
    (hrewatch : clause.rewatch? broken ctx.valuation = some (.conflict, clause')) :
    Work (.examine waiting broken kept implied (key :: taken), ctx)
      (.done (some key), { ctx.withClause key clause' with
        watches := ctx.watches.restore broken (kept ++ key :: taken) })
  | examined {ctx : Context ρ} {waiting implied : List Literal} {broken : Literal}
    {kept : List ClauseKey} :
    Work (.examine waiting broken kept implied [], ctx)
      (.queue (waiting ++ implied), { ctx with watches := ctx.watches.restore broken kept })
  | finished {ctx : Context ρ} : Work (.queue [], ctx) (.done none, ctx)

abbrev Works : Task × Context ρ → Task × Context ρ → Prop := Relation.ReflTransGen Work

/-! ## Runs as sequences of steps -/

theorem examine_works (waiting : List Literal) (broken : Literal) (kept : List ClauseKey)
    (implied : List Literal) (taken : List ClauseKey) :
    Ensures (examine broken kept implied taken) ctx (fun result ctx' =>
      Works (.examine waiting broken kept implied taken, ctx)
        (match result with
          | .implied literals => .queue (waiting ++ literals)
          | .conflict key => .done (some key), ctx')) anyFault := by
  -- by induction on the clauses left: each of them is one step of work
  induction taken generalizing ctx kept implied with
  | nil => exact .single .examined
  | cons key taken ih =>
    simp only [examine, ensures_bind, ensures_get]
    rcases hclause : ctx.clauses.get? key with _ | clause
    · trivial
    · rcases hrewatch : clause.rewatch? broken ctx.valuation with _ | ⟨update, clause'⟩
      · simp only [hrewatch, entry]
        trivial
      · simp only [hrewatch, entry, ensures_pure, ensures_bind, ensures_set]
        cases update with
        | alreadyTrue =>
          refine ensures_mono (ih _ _) ?_ fun _ => id
          exact fun _ _ hworks => .head (.alreadyTrue hclause hrewatch) hworks
        | found literal =>
          refine ensures_mono (ih _ _) ?_ fun _ => id
          exact fun _ _ hworks => .head (.found hclause hrewatch) hworks
        | unit literal =>
          simp only [ensures_bind]
          refine ensures_mono (ensures_run (record literal (some key)) _) ?_ fun _ => id
          intro _ ctx₁ hrecord
          refine ensures_mono (ih _ _) ?_ fun _ => id
          exact fun _ _ hworks => .head (.unit hclause hrewatch hrecord) hworks
        | conflict => exact .single (.conflict hclause hrewatch)

theorem propagateQueue_works (budget : Nat) (queue : List Literal) :
    Ensures (propagateQueue budget queue) ctx (fun result ctx' =>
      Works (.queue queue, ctx) (.done result, ctx')) anyFault := by
  induction budget generalizing ctx queue with
  | zero =>
    cases queue with
    | nil => exact .single .finished
    | cons literal queue => trivial
  | succ budget ih =>
    cases queue with
    | nil => exact .single .finished
    | cons literal queue =>
      simp only [propagateQueue, ensures_bind, ensures_modifyGet]
      refine ensures_mono (examine_works queue (-literal) [] [] _) ?_ fun _ => id
      rintro (literals | key) ctx₁ hworks
      · refine ensures_mono (ih _) ?_ fun _ => id
        exact fun _ _ hrest => (Relation.ReflTransGen.head .taken hworks).trans hrest
      · exact .head .taken hworks

theorem propagate_works (literal : Literal) :
    Ensures (propagate literal) ctx (fun result ctx' =>
      Works (.queue [literal], ctx) (.done result, ctx')) anyFault := by
  simp only [propagate, ensures_bind, ensures_get]
  exact propagateQueue_works _ _

/-! ## What the steps keep -/

/-- What is in order before a step, when some literals are to be propagated later. -/
def Ready (ctx : Context ρ) (later : List Literal) (late : Prop) : Task → Prop
  | .queue literals => ctx.Waiting (literals ++ later) late
  | .examine waiting broken kept implied taken =>
    ctx.Examining broken ((waiting ++ later) ++ implied) kept taken late
  | .done none => ctx.Waiting later late
  | .done (some key) => ctx.Intact ∧ ctx.InConflict key late

theorem Examining.watched {broken : Literal} {waiting : List Literal} {kept taken : List ClauseKey}
    {key : ClauseKey} {clause : WatchedClause}
    (h : ctx.Examining broken waiting kept (key :: taken) late)
    (hclause : ctx.clauses.get? key = some clause) :
    clause.first = broken ∨ clause.second = broken := by
  have hkey : key ∈ (ctx.watches.restore broken (kept ++ key :: taken)).watching broken := by simp
  obtain ⟨clause', hclause', hwatch⟩ := (h.exact.mem_iff key broken).1 hkey
  rw [hclause] at hclause'
  cases hclause'
  exact hwatch

/-- A clause that forces a literal is turned, and the literal can be given its value. -/
theorem Examining.forced {broken literal : Literal} {waiting : List Literal}
    {kept taken : List ClauseKey} {key : ClauseKey} {clause clause' : WatchedClause}
    (h : ctx.Examining broken waiting kept (key :: taken) late)
    (hclause : ctx.clauses.get? key = some clause)
    (hrewatch : clause.rewatch? broken ctx.valuation = some (.unit literal, clause')) :
    Ensures (record literal (some key)) (ctx.withClause key clause') (fun _ ctx' =>
      ctx.Propagated [literal] ctx' ∧
        ctx'.Examining broken (waiting ++ [literal]) (kept ++ [key]) taken late) never := by
  obtain ⟨turned, hsame, hsecond, hothers, hopen, rfl, rfl⟩ :=
    WatchedClause.rewatch?_eq_some (h.watched hclause) hrewatch
  have hagrees := h.agrees.withClause hclause hsame.perm
  have hnone : ctx.atoms.placement? clause'.first.atom = none :=
    h.agrees.placement_eq_none.2 (h.agrees.unvalued_iff.1 hopen)
  have hatom : clause'.first.atom < ctx.atoms.count :=
    (h.agrees.stored key clause hclause).2 _ (hsame.perm.mem_iff.1 List.mem_cons_self)
  refine ensures_of_never (record_spec hagrees hatom hnone ?_) ?_
  · rintro _ ⟨⟩
    have hget : (ctx.withClause key clause').clauses.get? key = some clause' := by
      rw [withClause, ClauseStore.get?_set hclause, if_pos rfl]
    exact hagrees.known hget
  · exact fun _ ctx' hrecorded => h.unit hclause hsame hsecond
      (fun other hother => h.agrees.fails_iff.1 (hothers other hother)) hnone hrecorded

/-- Each step puts at most a literal on the newest level, and keeps what is in order. -/
theorem Work.ready {task task' : Task} (h : Work (task, ctx) (task', ctx'))
    (hready : ctx.Ready later late task) :
    ctx'.Ready later late task' ∧ ∃ news, ctx.Propagated news ctx' := by
  cases h with
  | @taken _ literal queue =>
    have hwaiting : ctx.Waiting (literal :: (queue ++ later)) late := hready
    -- the clauses that watch the negation are taken out, and nothing else is out of order
    have hexamining := hwaiting.examining
    rw [← List.append_nil (queue ++ later)] at hexamining
    exact ⟨hexamining, [], propagated_withWatches _ _⟩
  | alreadyTrue hclause hrewatch =>
    obtain ⟨turned, hsame, hsecond, hholds, rfl⟩ :=
      WatchedClause.rewatch?_eq_some (Examining.watched hready hclause) hrewatch
    obtain ⟨level, hfirst⟩ := (Examining.agrees hready).holds_iff.1 hholds
    exact ⟨Examining.alreadyTrue hready hclause hsame hsecond hfirst, [],
      propagated_withClause hclause hsame.perm⟩
  | found hclause hrewatch =>
    obtain ⟨turned, hsame, hsecond, hstatus, hmem, others, hperm, rfl⟩ :=
      WatchedClause.rewatch?_eq_some (Examining.watched hready hclause) hrewatch
    obtain ⟨hpropagated, hexamining⟩ := Examining.found hready hclause hsame hsecond
      (fun i hi => hstatus ((Examining.agrees hready).fails_iff.2 ⟨i, hi⟩)) hmem hperm
    exact ⟨hexamining, [], hpropagated⟩
  | unit hclause hrewatch hrecord =>
    obtain ⟨hpropagated, hexamining⟩ :=
      ensures_ok (Examining.forced hready hclause hrewatch) hrecord
    rw [List.append_assoc] at hexamining
    exact ⟨hexamining, _, hpropagated⟩
  | conflict hclause hrewatch =>
    obtain ⟨turned, hsame, hsecond, hothers, hfails, rfl⟩ :=
      WatchedClause.rewatch?_eq_some (Examining.watched hready hclause) hrewatch
    have hagrees := Examining.agrees hready
    obtain ⟨hpropagated, hconflict⟩ := Examining.conflict hready hclause hsame hsecond
      (fun other hother => hagrees.fails_iff.1 (hothers other hother)) (hagrees.fails_iff.1 hfails)
    exact ⟨hconflict, [], hpropagated⟩
  | examined =>
    obtain ⟨hwaiting, hpropagated⟩ := Examining.restored hready
    exact ⟨hwaiting.subset fun other => by simp only [List.mem_append]; grind, [], hpropagated⟩
  | finished => exact ⟨hready, [], .refl _⟩

theorem Works.ready {task task' : Task} (h : Works (task, ctx) (task', ctx'))
    (hready : ctx.Ready later late task) :
    ctx'.Ready later late task' ∧ ∃ news, ctx.Propagated news ctx' := by
  suffices hsteps : ∀ point : Task × Context ρ, Works (task, ctx) point →
      point.2.Ready later late point.1 ∧ ∃ news, ctx.Propagated news point.2 from hsteps _ h
  intro point hpoint
  induction hpoint with
  | refl => exact ⟨hready, [], .refl _⟩
  | tail _ hwork ih =>
    obtain ⟨hready', news, hpropagated⟩ := ih
    obtain ⟨hready'', news', hpropagated'⟩ := Work.ready hwork hready'
    exact ⟨hready'', _, hpropagated.trans hpropagated'⟩

/-! ## Literals propagated before -/

/-- What is in order before a step if the literals of the queue were propagated before. -/
def Idle (ctx : Context ρ) : Task → Prop
  | .queue literals => ctx.Waiting [] False ∧
      ∀ literal ∈ literals, ∃ level, (literal, level) ∈ ctx.trail.marked
  | .examine waiting broken kept implied taken => implied = [] ∧ ctx.Reexamining broken kept taken ∧
      ∀ literal ∈ waiting, ∃ level, (literal, level) ∈ ctx.trail.marked
  | .done result => result = none ∧ ctx.Waiting [] False

theorem Reexamining.watched {broken : Literal} {kept taken : List ClauseKey} {key : ClauseKey}
    {clause : WatchedClause} (h : ctx.Reexamining broken kept (key :: taken))
    (hclause : ctx.clauses.get? key = some clause) :
    clause.first = broken ∨ clause.second = broken := by
  have hkey : key ∈ (ctx.watches.restore broken (kept ++ key :: taken)).watching broken := by simp
  obtain ⟨clause', hclause', hwatch⟩ := (h.exact.mem_iff key broken).1 hkey
  rw [hclause] at hclause'
  cases hclause'
  exact hwatch

theorem Reexamining.update_eq {broken : Literal} {kept taken : List ClauseKey} {key : ClauseKey}
    {clause clause' : WatchedClause} {update : WatchUpdate}
    (h : ctx.Reexamining broken kept (key :: taken)) (hclause : ctx.clauses.get? key = some clause)
    (hrewatch : clause.rewatch? broken ctx.valuation = some (update, clause')) :
    update = .alreadyTrue ∧ clause.SameWatches clause' := by
  obtain ⟨turned, hsame, hsecond, hturned⟩ :=
    WatchedClause.rewatch?_of_holds (h.watched hclause)
  rw [hturned _ (h.holds hclause hsame hsecond)] at hrewatch
  cases hrewatch
  exact ⟨rfl, hsame⟩

theorem Work.idle {task task' : Task} (h : Work (task, ctx) (task', ctx')) (hidle : ctx.Idle task) :
    ctx'.Idle task' := by
  cases h with
  | taken =>
    obtain ⟨hwaiting, hmarks⟩ := hidle
    obtain ⟨level, hmark⟩ := hmarks _ List.mem_cons_self
    exact ⟨rfl, hwaiting.reexamining hmark, fun other hother =>
      hmarks other (List.mem_cons_of_mem _ hother)⟩
  | alreadyTrue hclause hrewatch =>
    obtain ⟨himplied, hreexamining, hmarks⟩ := hidle
    obtain ⟨_, hsame⟩ := hreexamining.update_eq hclause hrewatch
    exact ⟨himplied, hreexamining.alreadyTrue hclause hsame, hmarks⟩
  | found hclause hrewatch => exact nomatch (hidle.2.1.update_eq hclause hrewatch).1
  | unit hclause hrewatch hrecord => exact nomatch (hidle.2.1.update_eq hclause hrewatch).1
  | conflict hclause hrewatch => exact nomatch (hidle.2.1.update_eq hclause hrewatch).1
  | examined =>
    obtain ⟨rfl, hreexamining, hmarks⟩ := hidle
    exact ⟨hreexamining.restored, by simpa using hmarks⟩
  | finished => exact ⟨rfl, hidle.1⟩

theorem Works.idle {task task' : Task} (h : Works (task, ctx) (task', ctx')) (hidle : ctx.Idle task) :
    ctx'.Idle task' := by
  suffices hsteps : ∀ point : Task × Context ρ, Works (task, ctx) point → point.2.Idle point.1 from
    hsteps _ h
  intro point hpoint
  induction hpoint with
  | refl => exact hidle
  | tail _ hwork ih => exact Work.idle hwork ih

end Satisfiability.Context
