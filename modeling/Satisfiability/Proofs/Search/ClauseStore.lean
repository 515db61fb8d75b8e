import Satisfiability.Search.ClauseStore

/-!
# Clauses by key

`ClauseStore.Has` relates a key to the literals of its clause. Clauses are never lost: a store only
grows, up to the order of literals (`ClauseStore.Grows`). The result of looking for another literal
to watch is described by `WatchedClause.rewatch?_cases`.
-/

namespace Satisfiability.Search

namespace WatchedClause

variable {clause : WatchedClause} {valuation : Valuation} {broken : Literal}

structure SameWatches (clause clause' : WatchedClause) : Prop where
  others : clause'.others = clause.others
  watches : (clause'.first = clause.first ∧ clause'.second = clause.second) ∨
    (clause'.first = clause.second ∧ clause'.second = clause.first)

theorem SameWatches.perm {clause' : WatchedClause} (h : clause.SameWatches clause') :
    clause'.literals.Perm clause.literals := by
  unfold literals
  rw [h.others]
  rcases h.watches with ⟨h₁, h₂⟩ | ⟨h₁, h₂⟩
  · rw [h₁, h₂]
  · rw [h₁, h₂]
    exact List.Perm.swap ..

theorem first_ne_second (hnodup : clause.literals.Nodup) : clause.first ≠ clause.second := by
  unfold literals at hnodup
  grind

theorem turn?_spec (hbroken : clause.first = broken ∨ clause.second = broken) :
    ∃ clause', clause.turn? broken = some clause' ∧ clause'.second = broken ∧
      clause.SameWatches clause' := by
  unfold turn?
  by_cases hfirst : clause.first = broken
  · exact ⟨_, if_pos hfirst, hfirst, rfl, Or.inr ⟨rfl, rfl⟩⟩
  · have hsecond := hbroken.resolve_left hfirst
    exact ⟨clause, by rw [if_neg hfirst, if_pos hsecond], hsecond, rfl, Or.inl ⟨rfl, rfl⟩⟩

theorem exchange?_eq_none {α : Type} {p : α → Bool} {x : α} {l : List α}
    (h : exchange? p x l = none) : ∀ a ∈ l, p a = false := by
  induction l with
  | nil => simp
  | cons b rest ih =>
    unfold exchange? at h
    split at h
    · exact absurd h (by simp)
    · rename_i hb
      intro a ha
      rcases List.mem_cons.1 ha with rfl | ha
      · simpa using hb
      · exact ih (by simpa using h) a ha

theorem exchange?_eq_some {α : Type} {p : α → Bool} {x a : α} {l l' : List α}
    (h : exchange? p x l = some (a, l')) : p a = true ∧ a ∈ l ∧ (x :: l).Perm (a :: l') := by
  induction l generalizing l' with
  | nil => simp [exchange?] at h
  | cons b rest ih =>
    unfold exchange? at h
    split at h
    · rename_i hb
      cases h
      exact ⟨hb, List.mem_cons_self, List.Perm.swap ..⟩
    · obtain ⟨⟨c, l₁⟩, hrest, hpair⟩ := Option.map_eq_some_iff.1 h
      cases hpair
      obtain ⟨hc, hmem, hperm⟩ := ih hrest
      refine ⟨hc, List.mem_cons_of_mem _ hmem, ?_⟩
      calc (x :: b :: rest).Perm (b :: x :: rest) := List.Perm.swap ..
        _ |>.Perm (b :: a :: l₁) := hperm.cons b
        _ |>.Perm (a :: b :: l₁) := List.Perm.swap ..

theorem rewatch?_of_holds (hbroken : clause.first = broken ∨ clause.second = broken) :
    ∃ turned, clause.SameWatches turned ∧ turned.second = broken ∧
      ∀ valuation : Valuation, valuation.status turned.first = .holds →
        clause.rewatch? broken valuation = some (.alreadyTrue, turned) := by
  obtain ⟨turned, hturn, hsecond, hsame⟩ := turn?_spec hbroken
  refine ⟨turned, hsame, hsecond, fun valuation hholds => ?_⟩
  simp only [rewatch?, hturn, Option.map_some, hholds, if_true]

/-- What can become of a clause one of whose watches is false. -/
theorem rewatch?_cases (valuation : Valuation)
    (hbroken : clause.first = broken ∨ clause.second = broken) :
    ∃ turned, clause.SameWatches turned ∧ turned.second = broken ∧
      ((valuation.status turned.first = .holds ∧
          clause.rewatch? broken valuation = some (.alreadyTrue, turned)) ∨
        (∃ literal others, valuation.status literal ≠ .fails ∧ literal ∈ turned.others ∧
          (broken :: turned.others).Perm (literal :: others) ∧
          clause.rewatch? broken valuation =
            some (.found literal, { first := turned.first, second := literal, others })) ∨
        ((∀ literal ∈ turned.others, valuation.status literal = .fails) ∧
          valuation.status turned.first = .unvalued ∧
          clause.rewatch? broken valuation = some (.unit turned.first, turned)) ∨
        ((∀ literal ∈ turned.others, valuation.status literal = .fails) ∧
          valuation.status turned.first = .fails ∧
          clause.rewatch? broken valuation = some (.conflict, turned))) := by
  obtain ⟨turned, hturn, hsecond, hsame⟩ := turn?_spec hbroken
  refine ⟨turned, hsame, hsecond, ?_⟩
  simp only [rewatch?, hturn, Option.map_some]
  by_cases hholds : valuation.status turned.first = .holds
  · exact Or.inl ⟨hholds, by rw [if_pos hholds]⟩
  · refine Or.inr ?_
    simp only [hholds, if_false]
    -- either some literal behind the watches is not false, or all are
    rcases hexchange : exchange? (fun literal => valuation.status literal != .fails) turned.second
      turned.others with _ | ⟨literal, others⟩
    · refine Or.inr ?_
      have hfail : ∀ literal ∈ turned.others, valuation.status literal = .fails := by
        simpa using exchange?_eq_none hexchange
      cases hstatus : valuation.status turned.first
      · exact Or.inl ⟨hfail, rfl, rfl⟩
      · exact absurd hstatus hholds
      · exact Or.inr ⟨hfail, rfl, rfl⟩
    · obtain ⟨hp, hmem, hperm⟩ := exchange?_eq_some hexchange
      rw [hsecond] at hperm
      exact Or.inl ⟨literal, others, by simpa using hp, hmem, hperm, rfl⟩

/-- What each update says of the clause, turned so that the false watch stands behind the other. -/
theorem rewatch?_eq_some {update : WatchUpdate} {clause' : WatchedClause}
    (hbroken : clause.first = broken ∨ clause.second = broken)
    (hrewatch : clause.rewatch? broken valuation = some (update, clause')) :
    ∃ turned, clause.SameWatches turned ∧ turned.second = broken ∧
      match update with
      | .alreadyTrue => valuation.status turned.first = .holds ∧ clause' = turned
      | .found literal => valuation.status literal ≠ .fails ∧ literal ∈ turned.others ∧
          ∃ others, (broken :: turned.others).Perm (literal :: others) ∧
            clause' = ⟨turned.first, literal, others⟩
      | .unit literal => (∀ other ∈ turned.others, valuation.status other = .fails) ∧
          valuation.status turned.first = .unvalued ∧ literal = turned.first ∧ clause' = turned
      | .conflict => (∀ other ∈ turned.others, valuation.status other = .fails) ∧
          valuation.status turned.first = .fails ∧ clause' = turned := by
  obtain ⟨turned, hsame, hsecond, hcases⟩ := rewatch?_cases valuation hbroken
  refine ⟨turned, hsame, hsecond, ?_⟩
  rw [hrewatch] at hcases
  rcases hcases with ⟨hholds, heq⟩ | ⟨literal, others, hstatus, hmem, hperm, heq⟩ |
    ⟨hothers, hopen, heq⟩ | ⟨hothers, hfails, heq⟩
  · cases heq
    exact ⟨hholds, rfl⟩
  · cases heq
    exact ⟨hstatus, hmem, others, hperm, rfl⟩
  · cases heq
    exact ⟨hothers, hopen, rfl, rfl⟩
  · cases heq
    exact ⟨hothers, hfails, rfl⟩

end WatchedClause

namespace ClauseStore

variable {store store' : ClauseStore} {key : ClauseKey}

def Has (store : ClauseStore) : ClauseKey → Clause → Prop
  | .unit source literal, clause => clause = [literal] ∧ literal ∈ (store.shelf source).units
  | .stored source index, clause =>
    ∃ watched, store.get? (.stored source index) = some watched ∧ watched.literals = clause

/-- Every clause of the first store is in the second, with its literals in some order. -/
def Grows (store store' : ClauseStore) : Prop :=
  ∀ key clause, store.Has key clause → ∃ clause', store'.Has key clause' ∧ clause'.Perm clause

@[simp]
theorem get?_empty (key : ClauseKey) : ({} : ClauseStore).get? key = none := by
  cases key with
  | unit source literal => rfl
  | stored source index => cases source <;> simp [get?, ClauseStore.shelf]

theorem not_has_empty (key : ClauseKey) (clause : Clause) : ¬ ({} : ClauseStore).Has key clause := by
  cases key with
  | unit source literal => cases source <;> simp [Has, ClauseStore.shelf]
  | stored source index => simp [Has]

theorem has_of_get? {watched : WatchedClause} (h : store.get? key = some watched) :
    store.Has key watched.literals := by
  cases key with
  | unit source literal => exact absurd h (by simp [get?])
  | stored source index => exact ⟨watched, h, rfl⟩

theorem literals?_of_has {clause : Clause} (h : store.Has key clause) :
    store.literals? key = some clause := by
  cases key with
  | unit source literal => rw [h.1]; rfl
  | stored source index =>
    obtain ⟨watched, hget, rfl⟩ := h
    simp [literals?, hget]

theorem Has.unique {clause clause' : Clause} {key : ClauseKey} (h : store.Has key clause)
    (h' : store.Has key clause') : clause = clause' :=
  Option.some.inj ((literals?_of_has h).symm.trans (literals?_of_has h'))

theorem Grows.refl (store : ClauseStore) : store.Grows store :=
  fun _ clause h => ⟨clause, h, .refl _⟩

theorem Grows.trans {store'' : ClauseStore} (h : store.Grows store') (h' : store'.Grows store'') :
    store.Grows store'' := by
  intro key clause hhas
  obtain ⟨clause', hhas', hperm⟩ := h key clause hhas
  obtain ⟨clause'', hhas'', hperm'⟩ := h' key clause' hhas'
  exact ⟨clause'', hhas'', hperm'.trans hperm⟩

/-! ## Storing and changing clauses -/

@[simp]
theorem shelf_setShelf (source source' : Source) (shelf : Shelf) :
    (store.setShelf source shelf).shelf source' = if source' = source then shelf
      else store.shelf source' := by
  cases source <;> cases source' <;> simp [setShelf, ClauseStore.shelf]

theorem isFull_iff {shelf : Shelf} : shelf.isFull ↔ halfWordCount ≤ shelf.stored.size :=
  decide_eq_true_iff

theorem store_full {source : Source} (hfull : (store.shelf source).isFull) (first second : Literal)
    (others : Clause) :
    store.store (first :: second :: others) source = .error .storageExhausted := by
  rw [ClauseStore.store, if_pos hfull]

theorem store_spec (store : ClauseStore) (first second : Literal) (others : Clause)
    {source : Source} (hroom : ¬ (store.shelf source).isFull) :
    ∃ key store', store.store (first :: second :: others) source = .ok (key, store') ∧
      store.get? key = none ∧
      (∀ other, store'.get? other = if other = key then some ⟨first, second, others⟩
        else store.get? other) ∧
      store' = store.setShelf source { store.shelf source with
        stored := (store.shelf source).stored.push ⟨first, second, others⟩ } ∧
      ∀ source', (store'.shelf source').units = (store.shelf source').units := by
  refine ⟨_, _, if_neg hroom, ?_, ?_, rfl, ?_⟩
  · simp [get?]
  · intro other
    cases other with
    | unit source' literal => simp [get?]
    | stored source' index =>
      by_cases hsource : source' = source
      · subst hsource
        simp [get?, Array.getElem?_push]
      · simp [get?, hsource]
  · intro source'
    by_cases hsource : source' = source
    · subst hsource
      simp
    · simp [hsource]

theorem get?_noteUnit (literal : Literal) (source : Source) (key : ClauseKey) :
    (store.noteUnit literal source).2.get? key = store.get? key := by
  cases key with
  | unit source' literal' => rfl
  | stored source' index =>
    by_cases hsource : source' = source
    · subst hsource
      simp [get?, noteUnit]
    · simp [get?, noteUnit, hsource]

theorem mem_units_noteUnit {literal literal' : Literal} {source source' : Source} :
    literal' ∈ ((store.noteUnit literal source).2.shelf source').units ↔
      literal' ∈ (store.shelf source').units ∨ (source' = source ∧ literal' = literal) := by
  by_cases hsource : source' = source
  · subst hsource
    simp [noteUnit]
  · simp [noteUnit, hsource]

theorem get?_set {watched old : WatchedClause} (hold : store.get? key = some old)
    (other : ClauseKey) :
    (store.set key watched).get? other = if other = key then some watched else store.get? other := by
  cases key with
  | unit source literal => exact absurd hold (by simp [get?])
  | stored source index =>
    cases other with
    | unit source' literal => simp [get?]
    | stored source' index' =>
      have hlt : index < (store.shelf source).stored.size :=
        (Array.getElem?_eq_some_iff.1 hold).1
      by_cases hsource : source' = source
      · subst hsource
        by_cases hindex : index' = index
        · subst hindex
          simp [get?, set, hlt]
        · simp [get?, set, hindex, Ne.symm hindex]
      · simp [get?, set, hsource]

theorem units_set {watched : WatchedClause} (source : Source) :
    ((store.set key watched).shelf source).units = (store.shelf source).units := by
  cases key with
  | unit source' literal => rfl
  | stored source' index =>
    by_cases hsource : source = source'
    · subst hsource
      simp [set]
    · simp [set, hsource]

theorem grows_of (hget : ∀ key watched, store.get? key = some watched →
      ∃ watched', store'.get? key = some watched' ∧ watched'.literals.Perm watched.literals)
    (hunits : ∀ source literal, literal ∈ (store.shelf source).units →
      literal ∈ (store'.shelf source).units) : store.Grows store' := by
  intro key clause hhas
  cases key with
  | unit source literal => exact ⟨clause, ⟨hhas.1, hunits _ _ hhas.2⟩, .refl _⟩
  | stored source index =>
    obtain ⟨watched, hwatched, rfl⟩ := hhas
    obtain ⟨watched', hwatched', hperm⟩ := hget _ _ hwatched
    exact ⟨_, ⟨watched', hwatched', rfl⟩, hperm⟩

theorem mem_clauses_shelf_iff {source : Source} {clause : Clause} :
    clause ∈ (store.shelf source).clauses ↔
      (∃ literal, store.Has (.unit source literal) clause) ∨
        ∃ index, store.Has (.stored source index) clause := by
  simp only [Shelf.clauses, List.mem_append, List.mem_map, Array.mem_toList_iff, Has, get?]
  refine or_congr ⟨?_, ?_⟩ ⟨?_, ?_⟩
  · rintro ⟨literal, hmem, rfl⟩
    exact ⟨literal, rfl, hmem⟩
  · rintro ⟨literal, rfl, hmem⟩
    exact ⟨literal, hmem, rfl⟩
  · rintro ⟨watched, hmem, rfl⟩
    obtain ⟨index, hindex⟩ := Array.mem_iff_getElem?.1 hmem
    exact ⟨index, watched, hindex, rfl⟩
  · rintro ⟨index, watched, hindex, rfl⟩
    exact ⟨watched, Array.mem_of_getElem? hindex, rfl⟩

theorem mem_clauses_iff {clause : Clause} :
    clause ∈ store.problemClauses ++ store.additionClauses ↔ ∃ key, store.Has key clause := by
  rw [List.mem_append, show store.problemClauses = (store.shelf .problem).clauses from rfl,
    show store.additionClauses = (store.shelf .addition).clauses from rfl, mem_clauses_shelf_iff,
    mem_clauses_shelf_iff]
  constructor
  · rintro ((⟨literal, h⟩ | ⟨index, h⟩) | (⟨literal, h⟩ | ⟨index, h⟩)) <;> exact ⟨_, h⟩
  · rintro ⟨⟨source, literal⟩ | ⟨source, index⟩, h⟩
    · cases source
      · exact Or.inl (Or.inl ⟨literal, h⟩)
      · exact Or.inr (Or.inl ⟨literal, h⟩)
    · cases source
      · exact Or.inl (Or.inr ⟨index, h⟩)
      · exact Or.inr (Or.inr ⟨index, h⟩)

/-- The clause is among those added, with its literals in some order. -/
def Added (store : ClauseStore) (clause : Clause) : Prop :=
  ∃ addition ∈ store.additionClauses, addition.Perm clause

theorem Grows.added {clause : Clause} (h : store.Grows store') (hadded : store.Added clause) :
    store'.Added clause := by
  obtain ⟨addition, hmem, hperm⟩ := hadded
  have hmem' : addition ∈ (store.shelf .addition).clauses := hmem
  rcases mem_clauses_shelf_iff.1 hmem' with ⟨literal, hhas⟩ | ⟨index, hhas⟩
  · obtain ⟨other, hother, hperm'⟩ := h _ _ hhas
    have hshelf := mem_clauses_shelf_iff.2 (Or.inl ⟨literal, hother⟩)
    exact ⟨other, hshelf, hperm'.trans hperm⟩
  · obtain ⟨other, hother, hperm'⟩ := h _ _ hhas
    have hshelf := mem_clauses_shelf_iff.2 (Or.inr ⟨index, hother⟩)
    exact ⟨other, hshelf, hperm'.trans hperm⟩

theorem added_noteUnit (store : ClauseStore) (literal : Literal) :
    (store.noteUnit literal .addition).2.Added [literal] := by
  refine ⟨[literal], ?_, .refl _⟩
  simp [additionClauses, ClauseStore.noteUnit, setShelf, Shelf.clauses]

theorem added_push (store : ClauseStore) (watched : WatchedClause) :
    (store.setShelf .addition { store.shelf .addition with
      stored := (store.shelf .addition).stored.push watched }).Added watched.literals := by
  refine ⟨watched.literals, ?_, .refl _⟩
  simp [additionClauses, setShelf, Shelf.clauses]

end ClauseStore

end Satisfiability.Search
