import Satisfiability.Proofs.Context.Storing

/-!
# What a search keeps true

A context is intact if its values agree with its trail, its index of watches is exact and no level
is bare (`Intact`); the watches keep their promises where they are not pending (`Guarded`). All that
holds whatever clauses are added. If the reasons that are noted are clauses that do force their
literals, then every literal of the trail is justified (`Justified`), and if all clauses hold in
some models, then so do the literals that are true without a decision (`Sound.ground`). Each of
these is stated once for each of the ways in which a context changes.
-/

namespace Satisfiability.Context

open Search Step Trail

variable {ρ : Type} {ctx ctx' ctx'' : Context ρ} {literal : Literal} {clause : Clause} {late : Prop}

def Satisfied (model : Atom → Bool) (clause : Clause) : Prop :=
  ∃ literal ∈ clause, model literal.atom = literal.positive

/-- The second context has the problem of the first, and all its clauses and ground literals. -/
structure Extends (ctx ctx' : Context ρ) : Prop where
  config : ctx'.config = ctx.config
  count : ctx'.atoms.count = ctx.atoms.count
  name : ∀ atom, ctx'.atoms.name? atom = ctx.atoms.name? atom
  grows : ctx.clauses.Grows ctx'.clauses
  ground : ∀ literal, (literal, 0) ∈ ctx.trail.marked → (literal, 0) ∈ ctx'.trail.marked

structure Intact (ctx : Context ρ) : Prop where
  agrees : ctx.Agrees
  exact : WatchIndex.Exact ctx.clauses ctx.watches
  known : ∀ atom key, ctx.graph.reason? atom = some key → ctx.Known key
  filled : ctx.trail.Filled

/-- The watches that are not pending keep their promises. -/
def Guarded (ctx : Context ρ) (pending : ClauseKey → Literal → Prop) (late : Prop := True) : Prop :=
  ∀ key clause, ctx.clauses.get? key = some clause →
    clause.Guarded ctx.trail.marked (pending key) late

/-- The clause with a key forces a literal at a place behind the negations of its other literals. -/
def Forces (store : ClauseStore) (marks : List (Literal × Nat)) (key : ClauseKey)
    (literal : Literal) (index : Nat) : Prop :=
  ∃ clause, store.Has key clause ∧ literal ∈ clause ∧ ∀ other ∈ clause, other ≠ literal →
    ∃ i < index, ∃ level, marks[i]? = some (-other, level)

/-- Each literal is forced by its reason, or is the first one of a level above the ground. -/
def Justified (ctx : Context ρ) : Prop :=
  ∀ index literal level, ctx.trail.marked[index]? = some (literal, level) →
    match ctx.graph.reason? literal.atom with
    | none => 0 < level ∧ ∀ i < index, ∀ mark, ctx.trail.marked[i]? = some mark → mark.2 < level
    | some key => Forces ctx.clauses ctx.trail.marked key literal index

/-- Literals are justified, clauses hold in all models of the kind `M`, and there are none if the
search says so. -/
structure Sound (M : (Atom → Bool) → Prop) (ctx : Context ρ) : Prop where
  justified : ctx.Justified
  entailed : ∀ key clause, ctx.clauses.Has key clause → ∀ model, M model → Satisfied model clause
  refuted : ctx.state = .unsatisfiable → ∀ model, ¬ M model

theorem Extends.refl (ctx : Context ρ) : ctx.Extends ctx :=
  ⟨rfl, rfl, fun _ => rfl, .refl _, fun _ => id⟩

theorem Extends.trans (h : ctx.Extends ctx') (h' : ctx'.Extends ctx'') : ctx.Extends ctx'' :=
  ⟨h'.config.trans h.config, h'.count.trans h.count,
    fun atom => (h'.name atom).trans (h.name atom), h.grows.trans h'.grows,
    fun literal hground => h'.ground literal (h.ground literal hground)⟩

theorem Extends.known (h : ctx.Extends ctx') {key : ClauseKey} (hkey : ctx.Known key) :
    ctx'.Known key := by
  obtain ⟨literals, hliterals, hatoms⟩ := hkey
  cases key with
  | unit source literal => exact ⟨literals, hliterals, by rw [h.count]; exact hatoms⟩
  | stored source index =>
    obtain ⟨watched, hget, rfl⟩ := Option.map_eq_some_iff.1 hliterals
    obtain ⟨clause, hhas, hperm⟩ := h.grows _ _ (ClauseStore.has_of_get? hget)
    refine ⟨clause, ClauseStore.literals?_of_has hhas, fun literal hmem => ?_⟩
    rw [h.count]
    exact hatoms literal (hperm.mem_iff.1 hmem)

theorem Agrees.known (h : ctx.Agrees) {key : ClauseKey} {watched : WatchedClause}
    (hget : ctx.clauses.get? key = some watched) : ctx.Known key :=
  ⟨watched.literals, ClauseStore.literals?_of_has (ClauseStore.has_of_get? hget),
    (h.stored key watched hget).2⟩

theorem Satisfied.subset {model : Atom → Bool} {clause' : Clause} (h : Satisfied model clause)
    (hsubset : clause ⊆ clause') : Satisfied model clause' := by
  obtain ⟨literal, hmem, hvalue⟩ := h
  exact ⟨literal, hsubset hmem, hvalue⟩

theorem satisfied_singleton {model : Atom → Bool} :
    Satisfied model [literal] ↔ model literal.atom = literal.positive := by
  simp [Satisfied]

theorem Guarded.mono {pending pending' : ClauseKey → Literal → Prop} (h : ctx.Guarded pending late)
    (hpending : ∀ key literal, pending key literal → pending' key literal) :
    ctx.Guarded pending' late :=
  fun key clause hclause => (h key clause hclause).mono (hpending key)

theorem Forces.mono {store store' : ClauseStore} {marks marks' : List (Literal × Nat)}
    {key : ClauseKey} {index : Nat} (h : Forces store marks key literal index)
    (hgrows : store.Grows store')
    (hmarks : ∀ i < index, ∀ mark, marks[i]? = some mark → marks'[i]? = some mark) :
    Forces store' marks' key literal index := by
  obtain ⟨clause, hhas, hmem, hothers⟩ := h
  obtain ⟨clause', hhas', hperm⟩ := hgrows key clause hhas
  refine ⟨clause', hhas', hperm.mem_iff.2 hmem, fun other hother hne => ?_⟩
  obtain ⟨i, hi, level, hmark⟩ := hothers other (hperm.mem_iff.1 hother) hne
  exact ⟨i, hi, level, hmarks i hi _ hmark⟩

theorem Justified.mono (h : ctx.Justified) (hgrows : ctx.clauses.Grows ctx'.clauses)
    (hbefore : ctx'.trail.marked <+: ctx.trail.marked)
    (hreason : ∀ mark ∈ ctx'.trail.marked,
      ctx'.graph.reason? mark.1.atom = ctx.graph.reason? mark.1.atom) : ctx'.Justified := by
  obtain ⟨more, hmore⟩ := hbefore
  have hkeep : ∀ (i : Nat) mark, ctx'.trail.marked[i]? = some mark →
      ctx.trail.marked[i]? = some mark := by
    intro i mark hmark
    rw [← hmore, List.getElem?_append_left (List.getElem?_eq_some_iff.1 hmark).1]
    exact hmark
  intro index literal level hmark
  have hold := h index literal level (hkeep _ _ hmark)
  have hlt := (List.getElem?_eq_some_iff.1 hmark).1
  -- and what stood before a kept mark was kept
  have hback : ∀ i < index, ∀ mark, ctx.trail.marked[i]? = some mark →
      ctx'.trail.marked[i]? = some mark := by
    intro i hi mark hmark'
    rwa [← hmore, List.getElem?_append_left (Nat.lt_trans hi hlt)] at hmark'
  rw [hreason _ (List.mem_of_getElem? hmark)]
  split
  · rename_i hnone
    rw [hnone] at hold
    exact ⟨hold.1, fun i hi mark hmark' => hold.2 i hi mark (hkeep _ _ hmark')⟩
  · rename_i key hkey
    rw [hkey] at hold
    exact hold.mono hgrows hback

/-! ## Literals put on the trail -/

section recorded

variable {reason : Option ClauseKey} (hrecorded : ctx.Recorded literal reason ctx')

include hrecorded

theorem Recorded.extends : ctx.Extends ctx' := by
  have hsame := hrecorded.same
  refine ⟨hsame.config, hsame.count, hsame.name, ?_, fun other hother => ?_⟩
  · rw [hsame.clauses]
    exact .refl _
  · rw [hrecorded.marked]
    exact List.mem_append_left _ hother

theorem Recorded.exact (h : WatchIndex.Exact ctx.clauses ctx.watches) :
    WatchIndex.Exact ctx'.clauses ctx'.watches := by
  rw [hrecorded.same.clauses, hrecorded.same.watches]
  exact h

theorem Recorded.known_reasons (h : ∀ atom key, ctx.graph.reason? atom = some key → ctx.Known key) :
    ∀ atom key, ctx'.graph.reason? atom = some key → ctx'.Known key := by
  intro atom key hkey
  rw [hrecorded.reason] at hkey
  split at hkey
  · exact hrecorded.extends.known (hrecorded.known key hkey)
  · exact hrecorded.extends.known (h atom key hkey)

theorem Recorded.intact (h : ctx.Intact) : ctx'.Intact := by
  refine ⟨hrecorded.agrees, hrecorded.exact h.exact, hrecorded.known_reasons h.known, ?_⟩
  rw [hrecorded.trail]
  exact h.filled.push

theorem Recorded.guarded {pending pending' : ClauseKey → Literal → Prop}
    (h : ctx.Guarded pending late)
    (hpending : ∀ key other, pending key other → pending' key other)
    (hnew : ∀ key, pending' key (-literal)) : ctx'.Guarded pending' late := by
  intro key clause hclause
  rw [hrecorded.same.clauses] at hclause
  rw [hrecorded.marked]
  exact (h key clause hclause).push (hpending key) (hnew key)

theorem Recorded.guarded_only (h : ctx.Guarded (fun _ _ => False) late) :
    ctx'.Guarded (fun _ other => -other ∈ [literal]) late :=
  hrecorded.guarded h (fun _ _ hfalse => hfalse.elim) fun _ => by simp

theorem Recorded.justified (h : ctx.Justified) (hagrees : ctx.Agrees)
    (hreason : match reason with
      | none => 0 < ctx.trail.level ∧ ∀ mark ∈ ctx.trail.marked, mark.2 < ctx.trail.level
      | some key => Forces ctx.clauses ctx.trail.marked key literal ctx.trail.marked.length)
    (hnone : ctx.atoms.placement? literal.atom = none) : ctx'.Justified := by
  intro index other level hmark
  have hkeep : ∀ i < ctx.trail.marked.length, ∀ mark, ctx.trail.marked[i]? = some mark ↔
      ctx'.trail.marked[i]? = some mark := by
    intro i hi mark
    rw [hrecorded.marked, List.getElem?_append_left hi]
  have hgrows : ctx.clauses.Grows ctx'.clauses := hrecorded.extends.grows
  rw [hrecorded.marked, getElem?_concat] at hmark
  rcases hmark with hold | ⟨rfl, hnew⟩
  · have hlt := (List.getElem?_eq_some_iff.1 hold).1
    have hne : other.atom ≠ literal.atom :=
      hagrees.placement_eq_none.1 hnone _ (List.mem_of_getElem? hold)
    have hother := h index other level hold
    rw [hrecorded.reason, if_neg hne]
    split
    · rename_i heq
      rw [heq] at hother
      exact ⟨hother.1, fun i hi mark hmark =>
        hother.2 i hi mark ((hkeep i (Nat.lt_trans hi hlt) mark).2 hmark)⟩
    · rename_i key heq
      rw [heq] at hother
      exact hother.mono hgrows fun i hi mark => (hkeep i (Nat.lt_trans hi hlt) mark).1
  · -- the new literal is justified by its reason, or as the first of its level
    cases hnew
    rw [hrecorded.reason, if_pos rfl]
    split
    · exact ⟨hreason.1, fun i hi mark hmark =>
        hreason.2 mark (List.mem_of_getElem? ((hkeep i hi mark).2 hmark))⟩
    · exact Forces.mono hreason hgrows fun i hi mark => (hkeep i hi mark).1

end recorded

/-! ## Levels closed -/

section returned

variable {target : Nat} (hreturned : ctx.Returned target ctx')

include hreturned

theorem Returned.extends : ctx.Extends ctx' := by
  have hsame := hreturned.same
  refine ⟨hsame.config, hsame.count, hsame.name, ?_, fun literal hground => ?_⟩
  · rw [hsame.clauses]
    exact .refl _
  · rw [hreturned.marked]
    exact mem_upTo.2 ⟨hground, Nat.zero_le _⟩

theorem Returned.intact (h : ctx.Intact) : ctx'.Intact := by
  refine ⟨hreturned.agrees, ?_, fun atom key hkey => ?_, hreturned.filled h.filled⟩
  · rw [hreturned.same.clauses, hreturned.same.watches]
    exact h.exact
  · exact hreturned.extends.known (h.known atom key (hreturned.reason_of hkey))

theorem Returned.guarded {pending : ClauseKey → Literal → Prop} (h : ctx.Guarded pending late)
    (hpending : ∀ key other level, pending key other →
      (-other, level) ∈ ctx.trail.marked → target < level) :
    ctx'.Guarded (fun _ _ => False) late := by
  intro key clause hclause
  rw [hreturned.same.clauses] at hclause
  rw [hreturned.marked]
  exact (h key clause hclause).upTo (hpending key)

theorem Returned.justified (h : ctx.Justified) : ctx'.Justified := by
  refine h.mono ?_ ?_ hreturned.reason
  · rw [hreturned.same.clauses]
    exact .refl _
  · rw [hreturned.marked]
    exact upTo_prefix (pairwise_marked _) _

theorem Returned.sound {M : (Atom → Bool) → Prop} (h : ctx.Sound M) : ctx'.Sound M := by
  refine ⟨hreturned.justified h.justified, ?_, ?_⟩
  · rw [hreturned.same.clauses]
    exact h.entailed
  · rw [hreturned.same.state]
    exact h.refuted

end returned

/-! ## Clauses added -/

section stored

variable {source : Source} {key : ClauseKey} (hstored : ctx.Stored clause source key ctx')

include hstored

theorem Stored.grows : ctx.clauses.Grows ctx'.clauses := by
  obtain ⟨watched, _, hget⟩ := hstored.get?
  refine ClauseStore.grows_of ?_ ?_
  · intro other old hold
    have hne : other ≠ key := by
      rintro rfl
      rw [hstored.fresh] at hold
      exact absurd hold (by simp)
    exact ⟨old, by rw [hget, if_neg hne, hold], .refl _⟩
  · intro source literal hunit
    rw [hstored.units]
    exact hunit

theorem Stored.has : ∃ clause', ctx'.clauses.Has key clause' ∧ clause'.Perm clause := by
  obtain ⟨watched, hliterals, hget⟩ := hstored.get?
  refine ⟨watched.literals, ClauseStore.has_of_get? ?_, ?_⟩
  · rw [hget, if_pos rfl]
  · rw [hliterals]
    exact perm_watchOrder ctx clause

theorem Stored.extends : ctx.Extends ctx' := by
  refine ⟨hstored.config, hstored.atoms.count, hstored.atoms.name, hstored.grows, ?_⟩
  rw [hstored.trail]
  exact fun _ => id

theorem Stored.intact (h : ctx.Intact) : ctx'.Intact := by
  refine ⟨hstored.agrees, hstored.exact, fun atom other hother => ?_, ?_⟩
  · rw [hstored.graph] at hother
    exact hstored.extends.known (h.known atom other hother)
  · rw [hstored.trail]
    exact h.filled

theorem Stored.guarded {pending : ClauseKey → Literal → Prop} (h : ctx.Guarded pending late)
    (hnew : ∀ watched : WatchedClause, watched.literals = ctx.watchOrder clause →
      watched.Guarded ctx.trail.marked (pending key) late) : ctx'.Guarded pending late := by
  obtain ⟨watched, hliterals, hget⟩ := hstored.get?
  intro other clause' hclause'
  rw [hstored.trail]
  rw [hget] at hclause'
  split at hclause'
  · rename_i heq
    subst heq
    cases hclause'
    exact hnew watched hliterals
  · exact h other clause' hclause'

theorem Stored.guarded_of_pending {pending : ClauseKey → Literal → Prop}
    (h : ctx.Guarded pending late)
    (hpending : ∀ watched : WatchedClause, watched.literals = ctx.watchOrder clause →
      (∀ i, (-watched.first, i) ∈ ctx.trail.marked → pending key watched.first) ∧
        ∀ i, (-watched.second, i) ∈ ctx.trail.marked → pending key watched.second) :
    ctx'.Guarded pending late :=
  hstored.guarded h fun watched hliterals =>
    ⟨.of_pending (hpending watched hliterals).1, .of_pending (hpending watched hliterals).2⟩

theorem Stored.has_cases {other : ClauseKey} {clause' : Clause}
    (h : ctx'.clauses.Has other clause') :
    ctx.clauses.Has other clause' ∨ (other = key ∧ clause'.Perm clause) := by
  obtain ⟨watched, hliterals, hget⟩ := hstored.get?
  cases other with
  | unit source literal =>
    refine Or.inl ⟨h.1, ?_⟩
    rw [← hstored.units]
    exact h.2
  | stored source index =>
    obtain ⟨watched', hget', rfl⟩ := h
    rw [hget] at hget'
    split at hget'
    · rename_i heq
      cases hget'
      refine Or.inr ⟨heq, ?_⟩
      rw [hliterals]
      exact perm_watchOrder ctx clause
    · exact Or.inl ⟨watched', hget', rfl⟩

omit hstored in
theorem Stored.added (hstored : ctx.Stored clause .addition key ctx') : ctx'.clauses.Added clause := by
  obtain ⟨watched, hliterals, hclauses⟩ := hstored.shelved
  obtain ⟨addition, hmem, hperm⟩ := ClauseStore.added_push ctx.clauses watched
  rw [hclauses]
  exact ⟨addition, hmem, hperm.trans (hliterals ▸ perm_watchOrder ctx clause)⟩

theorem Stored.justified (h : ctx.Justified) : ctx'.Justified := by
  refine h.mono hstored.grows ?_ ?_
  · exact hstored.trail ▸ List.prefix_refl _
  · rw [hstored.graph]
    exact fun _ _ => rfl

theorem Stored.sound {M : (Atom → Bool) → Prop} (h : ctx.Sound M)
    (hclause : ∀ model, M model → Satisfied model clause) : ctx'.Sound M := by
  refine ⟨hstored.justified h.justified, ?_, ?_⟩
  · intro other clause' hhas model hmodel
    rcases hstored.has_cases hhas with hold | ⟨_, hperm⟩
    · exact h.entailed other clause' hold model hmodel
    · exact (hclause model hmodel).subset hperm.symm.subset
  · rw [hstored.state]
    exact h.refuted

end stored

section noted

variable {source : Source}

def withUnit (ctx : Context ρ) (literal : Literal) (source : Source) : Context ρ :=
  { ctx with clauses := (ctx.clauses.noteUnit literal source).2 }

theorem noteUnit_spec (literal : Literal) (source : Source) :
    Ensures (noteUnit literal source) ctx (fun key ctx' => key = .unit source literal ∧
      ctx' = ctx.withUnit literal source) never :=
  ⟨rfl, rfl⟩

theorem grows_withUnit : ctx.clauses.Grows (ctx.withUnit literal source).clauses := by
  refine ClauseStore.grows_of ?_ ?_
  · intro key watched hwatched
    exact ⟨watched, by rw [withUnit, ClauseStore.get?_noteUnit, hwatched], .refl _⟩
  · intro source' other hother
    exact ClauseStore.mem_units_noteUnit.2 (Or.inl hother)

theorem mem_units_withUnit {source' : Source} {other : Literal}
    (h : other ∈ ((ctx.withUnit literal source).clauses.shelf source').units) :
    other ∈ (ctx.clauses.shelf source').units ∨ [literal] = [other] :=
  (ClauseStore.mem_units_noteUnit.1 h).imp_right fun heq => by rw [heq.2]

theorem has_noteUnit (store : ClauseStore) (literal : Literal) (source : Source) :
    (store.noteUnit literal source).2.Has (.unit source literal) [literal] :=
  ⟨rfl, ClauseStore.mem_units_noteUnit.2 (Or.inr ⟨rfl, rfl⟩)⟩

theorem known_unit (hatom : literal.atom < ctx.atoms.count) (source : Source) :
    ctx.Known (.unit source literal) :=
  ⟨[literal], rfl, by simpa using hatom⟩

theorem extends_withUnit : ctx.Extends (ctx.withUnit literal source) :=
  ⟨rfl, rfl, fun _ => rfl, grows_withUnit, fun _ => id⟩

theorem Agrees.withUnit (h : ctx.Agrees) : (ctx.withUnit literal source).Agrees := by
  refine ⟨h.coherent, h.placed, fun key clause hclause => ?_⟩
  rw [Context.withUnit, ClauseStore.get?_noteUnit] at hclause
  exact h.stored key clause hclause

theorem exact_withUnit (h : WatchIndex.Exact ctx.clauses ctx.watches) :
    WatchIndex.Exact (ctx.withUnit literal source).clauses (ctx.withUnit literal source).watches := by
  refine ⟨h.nodup, fun key other => ?_⟩
  rw [Context.withUnit, ClauseStore.get?_noteUnit]
  exact h.mem_iff key other

theorem Intact.withUnit (h : ctx.Intact) : (ctx.withUnit literal source).Intact :=
  ⟨h.agrees.withUnit, exact_withUnit h.exact,
    fun atom key hkey => extends_withUnit.known (h.known atom key hkey), h.filled⟩

theorem Guarded.withUnit {pending : ClauseKey → Literal → Prop} (h : ctx.Guarded pending late) :
    (ctx.withUnit literal source).Guarded pending late := by
  intro key clause hclause
  rw [Context.withUnit, ClauseStore.get?_noteUnit] at hclause
  exact h key clause hclause

theorem Justified.withUnit (h : ctx.Justified) : (ctx.withUnit literal source).Justified :=
  h.mono grows_withUnit (List.prefix_refl _) fun _ _ => rfl

theorem Sound.withUnit {M : (Atom → Bool) → Prop} (h : ctx.Sound M)
    (hliteral : ∀ model, M model → model literal.atom = literal.positive) :
    (ctx.withUnit literal source).Sound M := by
  refine ⟨h.justified.withUnit, ?_, h.refuted⟩
  intro key clause hhas model hmodel
  cases key with
  | unit source' other =>
    obtain ⟨rfl, hunit⟩ := hhas
    rcases ClauseStore.mem_units_noteUnit.1 hunit with hold | ⟨_, rfl⟩
    · exact h.entailed (.unit source' other) _ ⟨rfl, hold⟩ model hmodel
    · exact ⟨other, List.mem_singleton_self _, hliteral model hmodel⟩
  | stored source' index =>
    obtain ⟨watched, hget, rfl⟩ := hhas
    rw [Context.withUnit, ClauseStore.get?_noteUnit] at hget
    exact h.entailed (.stored source' index) _ ⟨watched, hget, rfl⟩ model hmodel

end noted

/-! ## What does not matter -/

section similar

variable (hsimilar : ctx.Similar ctx')

include hsimilar

theorem Similar.extends : ctx.Extends ctx' := by
  refine ⟨hsimilar.config, hsimilar.placements.count, hsimilar.placements.name, ?_, ?_⟩
  · rw [hsimilar.clauses]
    exact .refl _
  · rw [hsimilar.trail]
    exact fun _ => id

theorem Similar.agrees (h : ctx.Agrees) : ctx'.Agrees := by
  refine ⟨hsimilar.coherent, ?_, ?_⟩
  · intro atom placement
    rw [hsimilar.placements.placement, hsimilar.trail]
    exact h.placed atom placement
  · rw [hsimilar.clauses, hsimilar.placements.count]
    exact h.stored

theorem Similar.intact (h : ctx.Intact) : ctx'.Intact := by
  refine ⟨hsimilar.agrees h.agrees, ?_, ?_, ?_⟩
  · rw [hsimilar.clauses, hsimilar.watches]
    exact h.exact
  · rw [hsimilar.graph]
    exact fun atom key hkey => hsimilar.extends.known (h.known atom key hkey)
  · rw [hsimilar.trail]
    exact h.filled

theorem Similar.guarded {pending : ClauseKey → Literal → Prop} (h : ctx.Guarded pending late) :
    ctx'.Guarded pending late := by
  unfold Guarded
  rw [hsimilar.clauses, hsimilar.trail]
  exact h

theorem Similar.sound {M : (Atom → Bool) → Prop} (h : ctx.Sound M) : ctx'.Sound M := by
  refine ⟨?_, ?_, ?_⟩
  · unfold Justified
    rw [hsimilar.clauses, hsimilar.trail, hsimilar.graph]
    exact h.justified
  · rw [hsimilar.clauses]
    exact h.entailed
  · rw [hsimilar.state]
    exact h.refuted

end similar

theorem Similar.refl (hcoherent : ctx.atoms.Coherent) : ctx.Similar ctx :=
  ⟨rfl, rfl, rfl, rfl, rfl, rfl, hcoherent, .refl _⟩

theorem Similar.trans (h : ctx.Similar ctx') (h' : ctx'.Similar ctx'') : ctx.Similar ctx'' :=
  ⟨h'.config.trans h.config, h'.clauses.trans h.clauses, h'.watches.trans h.watches,
    h'.trail.trans h.trail, h'.graph.trans h.graph, h'.state.trans h.state, h'.coherent,
    h.placements.trans h'.placements⟩

/-! ## What is true without a decision -/

/-- In every model of the clauses the literals of level zero are true. -/
theorem Sound.ground {M : (Atom → Bool) → Prop} (h : ctx.Sound M) {model : Atom → Bool}
    (hmodel : M model) : ∀ literal, (literal, 0) ∈ ctx.trail.marked →
      model literal.atom = literal.positive := by
  -- by induction on the place: the other literals of the reason stand before
  have hplace : ∀ (index : Nat) (literal : Literal), ctx.trail.marked[index]? = some (literal, 0) →
      model literal.atom = literal.positive := by
    intro index
    induction index using Nat.strongRecOn with
    | ind index ih =>
      intro literal hmark
      have hjustified := h.justified index literal 0 hmark
      split at hjustified
      · -- a decision is not on level zero
        exact absurd hjustified.1 (Nat.lt_irrefl 0)
      · rename_i key _
        obtain ⟨clause, hhas, _, hothers⟩ := hjustified
        obtain ⟨other, hother, hvalue⟩ := h.entailed key clause hhas model hmodel
        by_cases heq : other = literal
        · rw [← heq]
          exact hvalue
        · obtain ⟨i, hi, level, hmark'⟩ := hothers other hother heq
          have hlevel : level = 0 := by
            have hsorted := pairwise_marked ctx.trail
            rw [List.pairwise_iff_getElem] at hsorted
            obtain ⟨hi', heq'⟩ := List.getElem?_eq_some_iff.1 hmark'
            obtain ⟨hindex, heq''⟩ := List.getElem?_eq_some_iff.1 hmark
            have hle := hsorted i index hi' hindex hi
            rw [heq', heq''] at hle
            exact Nat.le_zero.1 hle
          rw [hlevel] at hmark'
          have hfalse := ih i hi (-other) hmark'
          rw [Literal.atom_neg, Literal.positive_neg, hvalue] at hfalse
          exact absurd hfalse (by simp)
  intro literal hmem
  obtain ⟨index, hmark⟩ := List.mem_iff_getElem?.1 hmem
  exact hplace index literal hmark

theorem Sound.no_model {M : (Atom → Bool) → Prop} (h : ctx.Sound M)
    (hclause : ∀ model, M model → Satisfied model clause)
    (hfalse : ∀ literal ∈ clause, (-literal, 0) ∈ ctx.trail.marked) (model : Atom → Bool) :
    ¬ M model := by
  intro hmodel
  obtain ⟨literal, hmem, hvalue⟩ := hclause model hmodel
  have hneg := h.ground hmodel (-literal) (hfalse literal hmem)
  rw [Literal.atom_neg, Literal.positive_neg, hvalue] at hneg
  exact absurd hneg (by simp)

end Satisfiability.Context
