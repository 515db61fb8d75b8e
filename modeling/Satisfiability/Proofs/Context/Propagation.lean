import Satisfiability.Proofs.Context.Accounts
import Satisfiability.Context.Propagation

/-!
# Unit propagation

While the clauses that watch a false literal are examined, those still to be examined may break
their promise at that literal, and so may all clauses at the negations of literals that wait to be
propagated (`Examining`). In the end nothing is pending but what waited before, or a clause is found
whose literals are all false. No fault is possible, and the budget suffices: each literal propagated
but the first has used up an atom without a value. Where nothing waits and no clause is late, a true
literal is propagated once more without any effect (`propagate_idle`).
-/

namespace Satisfiability.Context

open Search Step Trail

variable {ρ : Type} {ctx ctx' ctx'' : Context ρ} {literal broken : Literal} {key : ClauseKey}
  {news news' waiting : List Literal} {late : Prop}

structure Propagated (ctx : Context ρ) (news : List Literal) (ctx' : Context ρ) : Prop where
  extension : ctx.Extends ctx'
  state : ctx'.state = ctx.state
  level : ctx'.trail.level = ctx.trail.level
  marked : ctx'.trail.marked = ctx.trail.marked ++ news.map (·, ctx.trail.level)
  reason : ∀ mark ∈ ctx.trail.marked,
    ctx'.graph.reason? mark.1.atom = ctx.graph.reason? mark.1.atom
  units : ∀ source, (ctx'.clauses.shelf source).units = (ctx.clauses.shelf source).units
  sound : ∀ M, ctx.Sound M → ctx'.Sound M
  accounted : ∀ log, ctx.Accounted log → ctx'.Accounted log

/-- A clause is in conflict: its literals are false, one of them on the newest level, and the
watches that are false on lower levels keep their promises. -/
structure InConflict (ctx : Context ρ) (key : ClauseKey) (late : Prop := True) : Prop where
  fails : ∃ clause, ctx.clauses.get? key = some clause ∧
    (∀ literal ∈ clause.literals, ∃ level, (-literal, level) ∈ ctx.trail.marked) ∧
    ∃ literal ∈ clause.literals, (-literal, ctx.trail.level) ∈ ctx.trail.marked
  guarded : ctx.Guarded (fun _ literal => (-literal, ctx.trail.level) ∈ ctx.trail.marked) late

theorem Propagated.refl (ctx : Context ρ) : ctx.Propagated [] ctx :=
  ⟨.refl _, rfl, rfl, by simp, fun _ _ => rfl, fun _ => rfl, fun _ => id, fun _ => id⟩

theorem Propagated.trans (h : ctx.Propagated news ctx') (h' : ctx'.Propagated news' ctx'') :
    ctx.Propagated (news ++ news') ctx'' := by
  refine ⟨h.extension.trans h'.extension, h'.state.trans h.state, h'.level.trans h.level, ?_,
    fun mark hmark => ?_, fun source => (h'.units source).trans (h.units source),
    fun M hsound => h'.sound M (h.sound M hsound),
    fun log haccounted => h'.accounted log (h.accounted log haccounted)⟩
  · rw [h'.marked, h.marked, h.level, List.map_append, List.append_assoc]
  · have hmark' : mark ∈ ctx'.trail.marked := by
      rw [h.marked]
      exact List.mem_append_left _ hmark
    rw [h'.reason mark hmark', h.reason mark hmark]

/-! ## Clauses turned -/

def withClause (ctx : Context ρ) (key : ClauseKey) (clause : WatchedClause) : Context ρ :=
  { ctx with clauses := ctx.clauses.set key clause }

section turned

variable {clause turned : WatchedClause} (hclause : ctx.clauses.get? key = some clause)
  (hperm : turned.literals.Perm clause.literals)

include hclause hperm

theorem grows_withClause : ctx.clauses.Grows (ctx.withClause key turned).clauses ∧
    (ctx.withClause key turned).clauses.Grows ctx.clauses := by
  constructor
  · refine ClauseStore.grows_of ?_ ?_
    · intro other watched hwatched
      rw [withClause, ClauseStore.get?_set hclause]
      split
      · rename_i heq
        rw [heq, hclause] at hwatched
        cases hwatched
        exact ⟨turned, rfl, hperm⟩
      · exact ⟨watched, hwatched, .refl _⟩
    · intro source literal hunit
      rw [withClause, ClauseStore.units_set]
      exact hunit
  · refine ClauseStore.grows_of ?_ ?_
    · intro other watched hwatched
      rw [withClause, ClauseStore.get?_set hclause] at hwatched
      split at hwatched
      · rename_i heq
        cases hwatched
        exact ⟨clause, by rw [heq, hclause], hperm.symm⟩
      · exact ⟨watched, hwatched, .refl _⟩
    · intro source literal hunit
      rw [withClause, ClauseStore.units_set] at hunit
      exact hunit

theorem Agrees.withClause (h : ctx.Agrees) : (ctx.withClause key turned).Agrees := by
  refine ⟨h.coherent, h.placed, fun other watched hwatched => ?_⟩
  rw [Context.withClause, ClauseStore.get?_set hclause] at hwatched
  split at hwatched
  · cases hwatched
    obtain ⟨hnodup, hatoms⟩ := h.stored key clause hclause
    exact ⟨hperm.nodup_iff.2 hnodup, fun literal hmem => hatoms literal (hperm.mem_iff.1 hmem)⟩
  · exact h.stored other watched hwatched

theorem propagated_withClause : ctx.Propagated [] (ctx.withClause key turned) := by
  obtain ⟨hgrows, hback⟩ := grows_withClause hclause hperm
  refine ⟨⟨rfl, rfl, fun _ => rfl, hgrows, fun _ => id⟩, rfl, rfl, (List.append_nil _).symm,
    fun _ _ => rfl, fun source => ClauseStore.units_set source, ?_, fun log h =>
      h.mono hgrows (fun _ => rfl) (fun _ => rfl) rfl (h.records.set hclause hperm)⟩
  intro M h
  refine ⟨h.justified.mono hgrows (List.prefix_refl _) fun _ _ => rfl, ?_, h.refuted⟩
  intro other clause' hhas model hmodel
  obtain ⟨clause'', hhas', hperm'⟩ := hback other clause' hhas
  exact (h.entailed other clause'' hhas' model hmodel).subset hperm'.subset

omit hperm in
/-- Of a promise that is pending at one literal for some clauses, one clause is dealt with. -/
theorem Guarded.withClause {pending : ClauseKey → Literal → Prop} {taken : List ClauseKey}
    (h : ctx.Guarded (fun other literal => pending other literal ∨
      (literal = broken ∧ other ∈ key :: taken)) late)
    (hturned : turned.Guarded ctx.trail.marked (fun literal => pending key literal) late) :
    (ctx.withClause key turned).Guarded (fun other literal => pending other literal ∨
      (literal = broken ∧ other ∈ taken)) late := by
  intro other watched hwatched
  rw [Context.withClause, ClauseStore.get?_set hclause] at hwatched
  split at hwatched
  · rename_i heq
    subst heq
    cases hwatched
    exact hturned.mono fun _ => Or.inl
  · rename_i hne
    refine (h other watched hwatched).mono fun literal hpending => ?_
    refine hpending.imp_right fun ⟨hbroken, hmem⟩ => ⟨hbroken, ?_⟩
    exact (List.mem_cons.1 hmem).resolve_left hne

end turned

/-- The watches of a clause keep their promises if one is true and the other is false on the newest
level. -/
theorem Agrees.guarded_of_true (h : ctx.Agrees) {turned : WatchedClause}
    (pending : Literal → Prop) {level : Nat}
    (hfirst : (turned.first, level) ∈ ctx.trail.marked)
    (hsecond : (-turned.second, ctx.trail.level) ∈ ctx.trail.marked) :
    turned.Guarded ctx.trail.marked pending late := by
  refine ⟨Guard.of_open fun i => h.not_both hfirst, ?_⟩
  intro i hi _
  have hlevel := (h.unique_mem hsecond hi rfl).2
  rw [← hlevel]
  exact Or.inl ⟨level, level_le hfirst, hfirst⟩

theorem Agrees.guarded_of_found (h : ctx.Agrees) {turned : WatchedClause}
    {pending : Literal → Prop} (others : List Literal) {level : Nat}
    (hguarded : turned.Guarded ctx.trail.marked (fun x => pending x ∨ x = turned.second) late)
    (hdistinct : turned.first ≠ turned.second)
    (hsecond : (-turned.second, level) ∈ ctx.trail.marked) (hmem : literal ∈ turned.others)
    (hopen : ∀ i, (-literal, i) ∉ ctx.trail.marked) :
    (WatchedClause.mk turned.first literal others).Guarded ctx.trail.marked pending late := by
  refine ⟨?_, Guard.of_open hopen⟩
  intro i hi hnot
  have hnot' : ¬ (pending turned.first ∨ turned.first = turned.second) := by
    rintro (hpending | heq)
    · exact hnot hpending
    · exact hdistinct heq
  rcases hguarded.1 i hi hnot' with ⟨k, _, htrue⟩ | ⟨_, _, hrest⟩
  · exact absurd hsecond (h.not_both htrue)
  · obtain ⟨k, _, hfalse⟩ := hrest literal hmem
    exact absurd hfalse (hopen k)

/-! ## The clauses that watch a literal -/

structure Examining (ctx : Context ρ) (broken : Literal) (waiting : List Literal)
    (kept taken : List ClauseKey) (late : Prop := True) : Prop where
  agrees : ctx.Agrees
  known : ∀ atom key, ctx.graph.reason? atom = some key → ctx.Known key
  filled : ctx.trail.Filled
  exact : WatchIndex.Exact ctx.clauses (ctx.watches.restore broken (kept ++ taken))
  fails : (-broken, ctx.trail.level) ∈ ctx.trail.marked
  held : ∀ literal ∈ waiting, (literal, ctx.trail.level) ∈ ctx.trail.marked
  guarded : ctx.Guarded (fun key literal =>
    -literal ∈ waiting ∨ (literal = broken ∧ key ∈ taken)) late

structure Waiting (ctx : Context ρ) (waiting : List Literal) (late : Prop := True) : Prop where
  intact : ctx.Intact
  held : ∀ literal ∈ waiting, (literal, ctx.trail.level) ∈ ctx.trail.marked
  guarded : ctx.Guarded (fun _ literal => -literal ∈ waiting) late

theorem propagated_withWatches (ctx : Context ρ) (watches : WatchIndex) :
    ctx.Propagated [] { ctx with watches } :=
  ⟨⟨rfl, rfl, fun _ => rfl, .refl _, fun _ => id⟩, rfl, rfl, (List.append_nil _).symm,
    fun _ _ => rfl, fun _ => rfl, fun _ h => ⟨h.justified, h.entailed, h.refuted⟩,
    fun _ h => h.mono (.refl _) (fun _ => rfl) (fun _ => rfl) rfl h.records⟩

theorem Agrees.withWatches (h : ctx.Agrees) (watches : WatchIndex) :
    ({ ctx with watches } : Context ρ).Agrees := ⟨h.coherent, h.placed, h.stored⟩

theorem Propagated.held (h : ctx.Propagated news ctx')
    (hwaiting : ∀ literal ∈ waiting, (literal, ctx.trail.level) ∈ ctx.trail.marked) :
    ∀ literal ∈ waiting ++ news, (literal, ctx'.trail.level) ∈ ctx'.trail.marked := by
  intro literal hmem
  rw [h.level, h.marked, List.mem_append]
  rcases List.mem_append.1 hmem with hmem | hmem
  · exact Or.inl (hwaiting literal hmem)
  · exact Or.inr (List.mem_map.2 ⟨literal, hmem, rfl⟩)

theorem Propagated.known_reasons (h : ctx.Propagated news ctx') (hgraph : ctx'.graph = ctx.graph)
    (hknown : ∀ atom key, ctx.graph.reason? atom = some key → ctx.Known key) :
    ∀ atom key, ctx'.graph.reason? atom = some key → ctx'.Known key := by
  rw [hgraph]
  exact fun atom key hkey => h.extension.known (hknown atom key hkey)

theorem Recorded.propagated (h : ctx.Recorded literal (some key) ctx')
    (hforces : Forces ctx.clauses ctx.trail.marked key literal ctx.trail.marked.length)
    (hanchors : Anchors ctx.clauses ctx.trail.marked key literal ctx.trail.level)
    (hagrees : ctx.Agrees) (hnone : ctx.atoms.placement? literal.atom = none) :
    ctx.Propagated [literal] ctx' := by
  refine ⟨h.extends, h.same.state, h.level, h.marked, h.reason_eq hagrees hnone, fun source => ?_,
    fun M hsound => ⟨h.justified hsound.justified hagrees hforces hnone, ?_, ?_⟩,
      fun log haccounted => h.accounted haccounted hagrees hnone hforces.valued ?_⟩
  · rw [h.same.clauses]
  · rw [h.same.clauses]
    exact hsound.entailed
  · rw [h.same.state]
    exact hsound.refuted
  · rintro _ ⟨⟩ _
    exact hanchors

section examining

variable {kept taken : List ClauseKey} {clause turned : WatchedClause}
  (h : ctx.Examining broken waiting kept (key :: taken) late)
  (hclause : ctx.clauses.get? key = some clause) (hsame : clause.SameWatches turned)
  (hsecond : turned.second = broken)

include h hclause hsame

theorem Examining.distinct : turned.first ≠ turned.second :=
  WatchedClause.first_ne_second (hsame.perm.nodup_iff.2 (h.agrees.stored key clause hclause).1)

theorem Examining.exact_kept : WatchIndex.Exact (ctx.withClause key turned).clauses
    ((ctx.withClause key turned).watches.restore broken ((kept ++ [key]) ++ taken)) := by
  rw [show (kept ++ [key]) ++ taken = kept ++ key :: taken by simp]
  exact h.exact.set_same hclause hsame

include hsecond

theorem Examining.alreadyTrue {level : Nat} (hfirst : (turned.first, level) ∈ ctx.trail.marked) :
    (ctx.withClause key turned).Examining broken waiting (kept ++ [key]) taken late := by
  have hguarded : turned.Guarded ctx.trail.marked (fun literal => -literal ∈ waiting) late :=
    h.agrees.guarded_of_true _ hfirst (by rw [hsecond]; exact h.fails)
  exact ⟨h.agrees.withClause hclause hsame.perm,
    (propagated_withClause hclause hsame.perm).known_reasons rfl h.known, h.filled,
    h.exact_kept hclause hsame, h.fails, h.held, h.guarded.withClause hclause hguarded⟩

theorem Examining.found {found : Literal} {others : List Literal}
    (hopen : ∀ i, (-found, i) ∉ ctx.trail.marked) (hmem : found ∈ turned.others)
    (hperm : (broken :: turned.others).Perm (found :: others)) :
    ctx.Propagated [] { ctx.withClause key ⟨turned.first, found, others⟩ with
        watches := ctx.watches.watch key found } ∧
      Examining { ctx.withClause key ⟨turned.first, found, others⟩ with
        watches := ctx.watches.watch key found } broken waiting kept taken late := by
  have hne : found ≠ broken := by
    rintro rfl
    exact hopen _ h.fails
  have hne' : found ≠ turned.first := by
    have hnodup := hsame.perm.nodup_iff.2 (h.agrees.stored key clause hclause).1
    unfold WatchedClause.literals at hnodup
    grind
  have hperm' : (WatchedClause.mk turned.first found others).literals.Perm clause.literals := by
    refine List.Perm.trans ?_ hsame.perm
    unfold WatchedClause.literals
    rw [hsecond]
    exact hperm.symm.cons _
  have hpending : turned.Guarded ctx.trail.marked (fun literal =>
      -literal ∈ waiting ∨ literal = turned.second) late := by
    refine (hsame.guarded (h.guarded key clause hclause)).mono fun literal hpending => ?_
    rw [hsecond]
    exact hpending.imp_right And.left
  have hdistinct := h.distinct hclause hsame
  -- an open watch keeps every promise of its clause
  have hguarded := h.agrees.guarded_of_found others hpending hdistinct
    (by rw [hsecond]; exact h.fails) hmem hopen
  have hwatches := WatchedClause.first_ne_second (h.agrees.stored key clause hclause).1
  have hexact := h.exact.set_found ⟨turned.first, found, others⟩ hclause
    ⟨turned, hsame, hsecond, rfl⟩ hwatches hne' hne
  have hpropagated := (propagated_withClause hclause hperm').trans
    (propagated_withWatches _ (ctx.watches.watch key found))
  exact ⟨hpropagated, (h.agrees.withClause hclause hperm').withWatches _,
    hpropagated.known_reasons rfl h.known, h.filled, hexact, h.fails, h.held,
    h.guarded.withClause hclause hguarded⟩

theorem Examining.unit (hothers : ∀ literal ∈ turned.others, ∃ i, (-literal, i) ∈ ctx.trail.marked)
    (hnone : ctx.atoms.placement? turned.first.atom = none)
    (hrecorded : (ctx.withClause key turned).Recorded turned.first (some key) ctx') :
    ctx.Propagated [turned.first] ctx' ∧
      ctx'.Examining broken (waiting ++ [turned.first]) (kept ++ [key]) taken late := by
  have hagrees := h.agrees.withClause hclause hsame.perm
  have hhas : (ctx.withClause key turned).clauses.Has key turned.literals := by
    refine ClauseStore.has_of_get? ?_
    rw [withClause, ClauseStore.get?_set hclause, if_pos rfl]
  have hforces : Forces (ctx.withClause key turned).clauses ctx.trail.marked key turned.first
      ctx.trail.marked.length := by
    refine ⟨turned.literals, hhas, List.mem_cons_self, fun other hother hne => ?_⟩
    -- the others of the clause are false: the broken watch, and those not watched
    have hfalse : ∃ i, (-other, i) ∈ ctx.trail.marked := by
      rcases List.mem_cons.1 ((List.mem_cons.1 hother).resolve_left hne) with rfl | hother
      · exact ⟨_, hsecond ▸ h.fails⟩
      · exact hothers other hother
    obtain ⟨i, hi⟩ := hfalse
    obtain ⟨index, hmark⟩ := List.mem_iff_getElem?.1 hi
    exact ⟨index, (List.getElem?_eq_some_iff.1 hmark).1, i, hmark⟩
  have hanchors : Anchors (ctx.withClause key turned).clauses ctx.trail.marked key turned.first
      ctx.trail.level :=
    ⟨turned.literals, hhas, turned.second, List.mem_cons_of_mem _ List.mem_cons_self,
      Ne.symm (h.distinct hclause hsame), hsecond ▸ h.fails⟩
  have hpropagated := (propagated_withClause hclause hsame.perm).trans
    (hrecorded.propagated hforces hanchors hagrees hnone)
  have hfails : (-broken, ctx'.trail.level) ∈ ctx'.trail.marked := by
    rw [hpropagated.level, hpropagated.marked]
    exact List.mem_append_left _ h.fails
  have hfirst : (turned.first, ctx'.trail.level) ∈ ctx'.trail.marked := by
    rw [hrecorded.marked, hrecorded.level]
    exact List.mem_append_right _ List.mem_cons_self
  have hknown := hrecorded.known_reasons
    ((propagated_withClause hclause hsame.perm).known_reasons rfl h.known)
  refine ⟨hpropagated, hrecorded.agrees, hknown, ?_, ?_, hfails, hpropagated.held h.held, ?_⟩
  · rw [hrecorded.trail]
    exact h.filled.push
  · rw [hrecorded.same.clauses, hrecorded.same.watches]
    exact h.exact_kept hclause hsame
  · intro other watched hwatched
    rw [hrecorded.same.clauses, withClause, ClauseStore.get?_set hclause] at hwatched
    split at hwatched
    · cases hwatched
      -- the clause examined holds from this level on
      exact hrecorded.agrees.guarded_of_true _ hfirst (by rw [hsecond]; exact hfails)
    · rename_i hne
      rw [hrecorded.marked]
      refine (h.guarded other watched hwatched).push (fun literal hpending => ?_) ?_
      · rcases hpending with hwaiting | ⟨hbroken, htaken⟩
        · exact Or.inl (List.mem_append_left _ hwaiting)
        · exact Or.inr ⟨hbroken, (List.mem_cons.1 htaken).resolve_left hne⟩
      · refine Or.inl (List.mem_append_right _ ?_)
        rw [Literal.neg_neg]
        exact List.mem_cons_self

theorem Examining.conflict (hothers : ∀ literal ∈ turned.others, ∃ i, (-literal, i) ∈ ctx.trail.marked)
    (hfirst : ∃ i, (-turned.first, i) ∈ ctx.trail.marked) :
    ctx.Propagated [] { ctx.withClause key turned with
        watches := ctx.watches.restore broken (kept ++ key :: taken) } ∧
      Intact { ctx.withClause key turned with
        watches := ctx.watches.restore broken (kept ++ key :: taken) } ∧
      InConflict { ctx.withClause key turned with
        watches := ctx.watches.restore broken (kept ++ key :: taken) } key late := by
  have hpropagated := (propagated_withClause hclause hsame.perm).trans
    (propagated_withWatches _ (ctx.watches.restore broken (kept ++ key :: taken)))
  refine ⟨hpropagated, ⟨(h.agrees.withClause hclause hsame.perm).withWatches _, ?_,
    hpropagated.known_reasons rfl h.known, h.filled⟩, ⟨turned, ?_, ?_, ?_⟩, ?_⟩
  · exact h.exact.set_same hclause hsame
  · rw [withClause, ClauseStore.get?_set hclause, if_pos rfl]
  · intro literal hliteral
    rcases List.mem_cons.1 hliteral with rfl | hliteral
    · exact hfirst
    · rcases List.mem_cons.1 hliteral with rfl | hliteral
      · exact ⟨_, hsecond ▸ h.fails⟩
      · exact hothers literal hliteral
  · exact ⟨broken, by simp [WatchedClause.literals, hsecond], h.fails⟩
  · -- whatever is pending is false on the newest level
    have hpending : ∀ other literal, (-literal ∈ waiting ∨ (literal = broken ∧ other ∈ key :: taken)) →
        (-literal, ctx.trail.level) ∈ ctx.trail.marked := by
      rintro other literal (hwaiting | ⟨rfl, _⟩)
      · exact h.held _ hwaiting
      · exact h.fails
    intro other watched hwatched
    rw [withClause, ClauseStore.get?_set hclause] at hwatched
    split at hwatched
    · cases hwatched
      exact (hsame.guarded (h.guarded key clause hclause)).mono (hpending key)
    · exact (h.guarded other watched hwatched).mono (hpending other)

end examining

theorem Examining.restored {kept : List ClauseKey} (h : ctx.Examining broken waiting kept [] late) :
    Waiting { ctx with watches := ctx.watches.restore broken kept } waiting late ∧
      ctx.Propagated [] { ctx with watches := ctx.watches.restore broken kept } := by
  have hexact := h.exact
  rw [List.append_nil] at hexact
  have hpropagated := propagated_withWatches ctx (ctx.watches.restore broken kept)
  refine ⟨⟨⟨h.agrees.withWatches _, hexact, hpropagated.known_reasons rfl h.known, h.filled⟩, h.held,
    ?_⟩, hpropagated⟩
  refine Guarded.mono h.guarded fun key literal hpending => hpending.resolve_right ?_
  exact fun hmem => List.not_mem_nil hmem.2

/-- The clauses that watch a false literal are examined without a fault. In the end what waited
before and the literals made true wait, or a clause is in conflict. -/
theorem examine_spec (waiting implied : List Literal) (kept taken : List ClauseKey)
    (h : ctx.Examining broken (waiting ++ implied) kept taken late) :
    Ensures (examine broken kept implied taken) ctx
      (fun result ctx' => ∃ news, ctx.Propagated news ctx' ∧
        match result with
        | .implied literals => literals = implied ++ news ∧ ctx'.Waiting (waiting ++ literals) late
        | .conflict key => ctx'.Intact ∧ ctx'.InConflict key late) never := by
  -- by induction on the clauses to be examined; each case is one way `rewatch?` can end
  induction taken generalizing ctx kept implied with
  | nil =>
    simp only [examine, restoreWatches, ensures_bind, ensures_modify, ensures_pure]
    obtain ⟨hwaiting, hpropagated⟩ := h.restored
    exact ⟨[], hpropagated, (List.append_nil _).symm, hwaiting⟩
  | cons key taken ih =>
    have hkey : key ∈ (ctx.watches.restore broken (kept ++ key :: taken)).watching broken := by
      simp
    obtain ⟨clause, hclause, hwatch⟩ := (h.exact.mem_iff key broken).1 hkey
    obtain ⟨turned, hsame, hsecond, hcases⟩ :=
      WatchedClause.rewatch?_cases ctx.valuation hwatch
    simp only [examine, ensures_bind, ensures_get, hclause]
    rcases hcases with ⟨hholds, hrewatch⟩ | ⟨found, others, hfound, hmem, hperm, hrewatch⟩ |
      ⟨hothers, hopen, hrewatch⟩ | ⟨hothers, hfails, hrewatch⟩
    · simp only [hrewatch, entry, ensures_pure, ensures_set]
      obtain ⟨level, hfirst⟩ := h.agrees.holds_iff.1 hholds
      refine ensures_of_never (ih implied _ (h.alreadyTrue hclause hsame hsecond hfirst)) ?_
      rintro result ctx' ⟨news, hnews, hresult⟩
      exact ⟨news, (propagated_withClause hclause hsame.perm).trans hnews, hresult⟩
    · simp only [hrewatch, entry, ensures_pure, ensures_set]
      have hfalse : ∀ i, (-found, i) ∉ ctx.trail.marked := fun i hi =>
        hfound (h.agrees.fails_iff.2 ⟨i, hi⟩)
      obtain ⟨hpropagated, hexamining⟩ := h.found hclause hsame hsecond hfalse hmem hperm
      refine ensures_of_never (ih implied _ hexamining) ?_
      rintro result ctx' ⟨news, hnews, hresult⟩
      exact ⟨news, hpropagated.trans hnews, hresult⟩
    · simp only [hrewatch, entry, ensures_pure, ensures_set, ensures_bind]
      have hothers' : ∀ literal ∈ turned.others, ∃ i, (-literal, i) ∈ ctx.trail.marked :=
        fun literal hliteral => h.agrees.fails_iff.1 (hothers literal hliteral)
      have hnone : ctx.atoms.placement? turned.first.atom = none :=
        h.agrees.placement_eq_none.2 (h.agrees.unvalued_iff.1 hopen)
      have hatom : turned.first.atom < ctx.atoms.count :=
        (h.agrees.stored key clause hclause).2 _ (hsame.perm.mem_iff.1 List.mem_cons_self)
      refine ensures_of_never (record_spec (h.agrees.withClause hclause hsame.perm) hatom hnone ?_)
        ?_
      · rintro _ ⟨⟩
        have hget : (ctx.withClause key turned).clauses.get? key = some turned := by
          rw [withClause, ClauseStore.get?_set hclause, if_pos rfl]
        exact (h.agrees.withClause hclause hsame.perm).known hget
      · intro _ ctx' hrecorded
        obtain ⟨hpropagated, hexamining⟩ := h.unit hclause hsame hsecond hothers' hnone hrecorded
        rw [List.append_assoc] at hexamining
        refine ensures_of_never (ih _ _ hexamining) ?_
        rintro result ctx'' ⟨news, hnews, hresult⟩
        refine ⟨[turned.first] ++ news, hpropagated.trans hnews, ?_⟩
        rw [← List.append_assoc]
        exact hresult
    · simp only [hrewatch, entry, ensures_pure, ensures_set, restoreWatches]
      have hothers' : ∀ literal ∈ turned.others, ∃ i, (-literal, i) ∈ ctx.trail.marked :=
        fun literal hliteral => h.agrees.fails_iff.1 (hothers literal hliteral)
      exact ⟨[], h.conflict hclause hsame hsecond hothers' (h.agrees.fails_iff.1 hfails)⟩

/-! ## Whole propagations -/

theorem Waiting.subset {waiting' : List Literal} (h : ctx.Waiting waiting late)
    (hiff : ∀ literal, literal ∈ waiting' ↔ literal ∈ waiting) : ctx.Waiting waiting' late :=
  ⟨h.intact, fun literal hmem => h.held literal ((hiff literal).1 hmem),
    h.guarded.mono fun _ literal => (hiff (-literal)).2⟩

/-- The clauses that watch the negation of a waiting literal are taken to be examined. -/
theorem Waiting.examining (h : ctx.Waiting (literal :: waiting) late) :
    Examining { ctx with watches := (ctx.watches.take (-literal)).2 } (-literal) waiting []
      (ctx.watches.take (-literal)).1 late := by
  have hholds := h.held literal List.mem_cons_self
  refine ⟨h.intact.agrees.withWatches _, (propagated_withWatches _ _).known_reasons rfl h.intact.known,
    h.intact.filled, ?_, ?_, ?_, ?_⟩
  · refine h.intact.exact.congr fun other => ?_
    rw [List.nil_append, WatchIndex.watching_restore, WatchIndex.watching_take,
      WatchIndex.watching_take, WatchIndex.take_fst]
    by_cases heq : other = -literal
    · simp [heq]
    · simp [heq]
  · rw [Literal.neg_neg]
    exact hholds
  · exact fun other hmem => h.held other (List.mem_cons_of_mem _ hmem)
  · intro key clause hclause
    -- a clause with the negation for a watch is among those taken
    have hpending : ∀ watch, clause.first = watch ∨ clause.second = watch →
        -watch ∈ literal :: waiting → -watch ∈ waiting ∨ (watch = -literal ∧
          key ∈ (ctx.watches.take (-literal)).1) := by
      intro watch hwatch hmem
      rcases List.mem_cons.1 hmem with heq | hmem
      · have hbroken : watch = -literal := by rw [← heq, Literal.neg_neg]
        refine Or.inr ⟨hbroken, ?_⟩
        rw [WatchIndex.take_fst, h.intact.exact.mem_iff]
        exact ⟨clause, hclause, hbroken ▸ hwatch⟩
      · exact Or.inl hmem
    exact (h.guarded key clause hclause).mono_watches (hpending _ (Or.inl rfl))
      (hpending _ (Or.inr rfl))

/-- A queue is propagated without a fault. In the end only what is to be propagated later waits, or
a clause is in conflict. -/
theorem propagateQueue_spec (later queue : List Literal) (budget : Nat)
    (h : ctx.Waiting (queue ++ later) late)
    (hbudget : queue.length + (ctx.atoms.count - ctx.trail.marked.length) ≤ budget) :
    Ensures (propagateQueue budget queue) ctx
      (fun result ctx' => ∃ news, ctx.Propagated news ctx' ∧
        match result with
        | none => ctx'.Waiting later late
        | some key => ctx'.Intact ∧ ctx'.InConflict key late) never := by
  -- what waits and the atoms without a value pay for the steps together
  induction budget generalizing ctx queue with
  | zero =>
    have hnil : queue = [] := List.eq_nil_of_length_eq_zero (by omega)
    subst hnil
    exact ⟨[], .refl _, h⟩
  | succ budget ih =>
    cases queue with
    | nil => exact ⟨[], .refl _, h⟩
    | cons literal queue =>
      rw [List.cons_append] at h
      have hexamining := h.examining
      rw [← List.append_nil (queue ++ later)] at hexamining
      have hwatches := propagated_withWatches ctx (ctx.watches.take (-literal)).2
      simp only [propagateQueue, ensures_bind, ensures_modifyGet]
      refine ensures_of_never (examine_spec _ _ _ _ hexamining) ?_
      rintro result ctx' ⟨news, hnews, hresult⟩
      have hpropagated := hwatches.trans hnews
      rw [List.nil_append] at hpropagated
      cases result with
      | conflict key => exact ⟨news, hpropagated, hresult⟩
      | implied literals =>
        obtain ⟨rfl, hwaiting⟩ := hresult
        have hwaiting' : ctx'.Waiting ((queue ++ literals) ++ later) late := by
          refine hwaiting.subset fun other => ?_
          simp only [List.mem_append]
          grind
        have hlength := hpropagated.marked
        have hle := hwaiting.intact.agrees.length_le
        refine ensures_of_never (ih _ hwaiting' ?_) ?_
        · rw [hpropagated.extension.count, hlength] at *
          simp only [List.length_append, List.length_map, List.length_cons] at *
          omega
        · rintro result ctx'' ⟨news', hnews', hresult'⟩
          exact ⟨literals ++ news', hpropagated.trans hnews', hresult'⟩

/-- A literal is propagated without a fault. In the end only what is to be propagated later waits,
or a clause is in conflict. -/
theorem propagate_spec (later : List Literal) (h : ctx.Waiting (literal :: later) late) :
    Ensures (propagate literal) ctx
      (fun result ctx' => ∃ news, ctx.Propagated news ctx' ∧
        match result with
        | none => ctx'.Waiting later late
        | some key => ctx'.Intact ∧ ctx'.InConflict key late) never := by
  unfold propagate
  rw [ensures_bind, ensures_get]
  refine propagateQueue_spec later [literal] _ h ?_
  have := h.intact.agrees.count_le
  rw [List.length_singleton]
  omega

/-! ## Literals propagated before -/

/-- The state in which the clauses that watch a literal are examined although its falsity was seen
to before. -/
structure Reexamining (ctx : Context ρ) (broken : Literal) (kept taken : List ClauseKey) : Prop where
  agrees : ctx.Agrees
  known : ∀ atom key, ctx.graph.reason? atom = some key → ctx.Known key
  filled : ctx.trail.Filled
  exact : WatchIndex.Exact ctx.clauses (ctx.watches.restore broken (kept ++ taken))
  fails : ∃ level, (-broken, level) ∈ ctx.trail.marked
  guarded : ctx.Guarded (fun _ _ => False) False

theorem Guarded.turned {pending : ClauseKey → Literal → Prop} {clause turned : WatchedClause}
    (h : ctx.Guarded pending late) (hclause : ctx.clauses.get? key = some clause)
    (hsame : clause.SameWatches turned) : (ctx.withClause key turned).Guarded pending late := by
  intro other watched hwatched
  rw [Context.withClause, ClauseStore.get?_set hclause] at hwatched
  split at hwatched
  · rename_i heq
    subst heq
    cases hwatched
    exact hsame.guarded (h other clause hclause)
  · exact h other watched hwatched

/-- The clauses that watch the negation of a true literal are taken although none has a broken
promise. -/
theorem Waiting.reexamining {level : Nat} (h : ctx.Waiting [] False)
    (hmark : (literal, level) ∈ ctx.trail.marked) :
    Reexamining { ctx with watches := (ctx.watches.take (-literal)).2 } (-literal) []
      (ctx.watches.take (-literal)).1 := by
  have hwatches := propagated_withWatches ctx (ctx.watches.take (-literal)).2
  refine ⟨h.intact.agrees.withWatches _, hwatches.known_reasons rfl h.intact.known,
    h.intact.filled, ?_, ⟨level, by rw [Literal.neg_neg]; exact hmark⟩, ?_⟩
  · refine h.intact.exact.congr fun other => ?_
    rw [List.nil_append, WatchIndex.watching_restore, WatchIndex.watching_take,
      WatchIndex.watching_take, WatchIndex.take_fst]
    by_cases heq : other = -literal
    · simp [heq]
    · simp [heq]
  · exact h.guarded.mono fun _ _ hmem => List.not_mem_nil hmem

section reexamining

variable {kept taken : List ClauseKey} {clause turned : WatchedClause}
  (h : ctx.Reexamining broken kept (key :: taken)) (hclause : ctx.clauses.get? key = some clause)
  (hsame : clause.SameWatches turned)

include h hclause hsame

theorem Reexamining.holds (hsecond : turned.second = broken) :
    ctx.valuation.status turned.first = .holds := by
  obtain ⟨level, hfails⟩ := h.fails
  have hguard := (hsame.guarded (h.guarded key clause hclause)).2
  rw [hsecond] at hguard
  obtain ⟨i, _, hfirst⟩ := (hguard level hfails id).resolve_right And.left
  exact h.agrees.holds_iff.2 ⟨i, hfirst⟩

theorem Reexamining.alreadyTrue :
    (ctx.withClause key turned).Reexamining broken (kept ++ [key]) taken := by
  refine ⟨h.agrees.withClause hclause hsame.perm,
    (propagated_withClause hclause hsame.perm).known_reasons rfl h.known, h.filled, ?_, h.fails,
    h.guarded.turned hclause hsame⟩
  rw [show (kept ++ [key]) ++ taken = kept ++ key :: taken by simp]
  exact h.exact.set_same hclause hsame

end reexamining

theorem Reexamining.restored {kept : List ClauseKey} (h : ctx.Reexamining broken kept []) :
    Waiting { ctx with watches := ctx.watches.restore broken kept } [] False := by
  have hexact := h.exact
  rw [List.append_nil] at hexact
  exact ⟨⟨h.agrees.withWatches _, hexact, (propagated_withWatches ctx _).known_reasons rfl h.known,
    h.filled⟩, by simp, Guarded.mono h.guarded fun _ _ => False.elim⟩

theorem examine_idle (implied : List Literal) (kept taken : List ClauseKey)
    (h : ctx.Reexamining broken kept taken) :
    Ensures (examine broken kept implied taken) ctx (fun result ctx' => result = .implied implied ∧
      ctx.Propagated [] ctx' ∧ ctx'.Waiting [] False) never := by
  induction taken generalizing ctx kept with
  | nil =>
    simp only [examine, restoreWatches, ensures_bind, ensures_modify, ensures_pure]
    exact ⟨trivial, propagated_withWatches ctx (ctx.watches.restore broken kept), h.restored⟩
  | cons key taken ih =>
    have hkey : key ∈ (ctx.watches.restore broken (kept ++ key :: taken)).watching broken := by
      simp
    obtain ⟨clause, hclause, hwatch⟩ := (h.exact.mem_iff key broken).1 hkey
    obtain ⟨turned, hsame, hsecond, hrewatch⟩ := WatchedClause.rewatch?_of_holds hwatch
    have hholds := h.holds hclause hsame hsecond
    simp only [examine, ensures_bind, ensures_get, hclause, hrewatch _ hholds, entry, ensures_pure,
      ensures_set]
    refine ensures_of_never (ih (kept ++ [key]) (h.alreadyTrue hclause hsame)) ?_
    rintro result ctx' ⟨hresult, hnews, hwaiting⟩
    exact ⟨hresult, (propagated_withClause hclause hsame.perm).trans hnews, hwaiting⟩

/-- Nothing comes of the propagation of a literal whose truth was seen to before. -/
theorem propagate_idle {level : Nat} (h : ctx.Waiting [] False)
    (hmark : (literal, level) ∈ ctx.trail.marked) :
    Ensures (propagate literal) ctx (fun result ctx' => result = none ∧ ctx.Propagated [] ctx' ∧
      ctx'.Waiting [] False) never := by
  have hwatches := propagated_withWatches ctx (ctx.watches.take (-literal)).2
  simp only [propagate, ensures_bind, ensures_get, propagateQueue, ensures_modifyGet]
  refine ensures_of_never (examine_idle [] _ _ (h.reexamining hmark)) ?_
  rintro result ctx' ⟨rfl, hnews, hwaiting⟩
  simp only [List.nil_append, propagateQueue, ensures_pure, true_and]
  exact ⟨hwatches.trans hnews, hwaiting⟩

end Satisfiability.Context
