import Mathlib.Data.List.Forall2
import Satisfiability.Proofs.Search.ClauseStore

/-!
# What was stored

A log lists the clauses that were stored, the oldest first, each with its source. A store records a
log if each shelf holds the clauses of its source in the order of the log, with their literals in
some order (`ClauseStore.Records`). Turning a clause changes no record; storing one adds it to the
log.
-/

namespace Satisfiability.Search

def stock (source : Source) (log : List (Source × Clause)) : List Clause :=
  (log.filter (·.1 = source)).map (·.2)

theorem stock_append_singleton (source source' : Source) (clause : Clause)
    (log : List (Source × Clause)) :
    stock source (log ++ [(source', clause)]) =
      if source' = source then stock source log ++ [clause] else stock source log := by
  unfold stock
  rw [List.filter_append, List.map_append]
  by_cases hsource : source' = source
  · simp [hsource]
  · simp [hsource]

/-- The entry of a clause in the log. Clauses of one literal are not stored. -/
def logged (source : Source) (clause : Clause) : List (Source × Clause) :=
  if 2 ≤ clause.length then [(source, clause)] else []

namespace ClauseStore

variable {store store' : ClauseStore} {log : List (Source × Clause)} {watched : WatchedClause}

/-- The shelves hold the clauses of the log. -/
def Records (store : ClauseStore) (log : List (Source × Clause)) : Prop :=
  ∀ source, List.Forall₂ (fun watched clause => watched.literals.Perm clause)
    (store.shelf source).stored.toList (stock source log)

theorem records_empty : ({} : ClauseStore).Records [] := fun source => by
  cases source <;> exact .nil

theorem Records.congr (h : store.Records log)
    (hstored : ∀ source, (store'.shelf source).stored = (store.shelf source).stored) :
    store'.Records log := fun source => by
  rw [hstored]
  exact h source

theorem Records.noteUnit (h : store.Records log) (literal : Literal) (source : Source) :
    (store.noteUnit literal source).2.Records log := by
  refine h.congr fun source' => ?_
  by_cases hsource : source' = source
  · subst hsource
    simp [ClauseStore.noteUnit]
  · simp [ClauseStore.noteUnit, hsource]

theorem Records.set (h : store.Records log) {key : ClauseKey} {old : WatchedClause}
    (hold : store.get? key = some old) (hperm : watched.literals.Perm old.literals) :
    (store.set key watched).Records log := by
  intro source
  obtain ⟨hlength, hperms⟩ := List.forall₂_iff_get.1 (h source)
  cases key with
  | unit source' literal => exact h source
  | stored source' index =>
    by_cases hsource : source = source'
    · subst hsource
      have hold' : (store.shelf source).stored[index]? = some old := hold
      obtain ⟨hlt, rfl⟩ := Array.getElem?_eq_some_iff.1 hold'
      simp only [ClauseStore.set, shelf_setShelf, if_true, Array.toList_setIfInBounds]
      refine List.forall₂_iff_get.2 ⟨by simpa using hlength, fun i hi hi' => ?_⟩
      have hi'' : i < (store.shelf source).stored.toList.length := by simpa using hi
      have hpermi := hperms i hi'' hi'
      by_cases hindex : index = i
      · subst hindex
        simpa using hperm.trans (by simpa using hpermi)
      · simpa [List.getElem_set, hindex] using hpermi
    · simpa only [ClauseStore.set, shelf_setShelf, if_neg hsource] using h source

theorem Records.push (h : store.Records log) {clause : Clause} (source : Source)
    (hperm : watched.literals.Perm clause) :
    (store.setShelf source { store.shelf source with
      stored := (store.shelf source).stored.push watched }).Records (log ++ [(source, clause)]) := by
  intro source'
  rw [shelf_setShelf, stock_append_singleton]
  by_cases hsource : source' = source
  · subst hsource
    rw [if_pos rfl, if_pos rfl, Array.toList_push]
    exact List.rel_append (h source') (.cons hperm .nil)
  · rw [if_neg hsource, if_neg (Ne.symm hsource)]
    exact h source'

theorem mem_stock {source : Source} {clause : Clause} :
    clause ∈ stock source log ↔ (source, clause) ∈ log := by
  simp [stock]

theorem exists_of_forall₂ {α β : Type} {r : α → β → Prop} {xs : List α} {ys : List β} {x : α}
    (h : List.Forall₂ r xs ys) (hx : x ∈ xs) : ∃ y ∈ ys, r x y := by
  induction h with
  | nil => exact absurd hx List.not_mem_nil
  | cons hfirst _ ih =>
    rcases List.mem_cons.1 hx with rfl | hx
    · exact ⟨_, List.mem_cons_self, hfirst⟩
    · obtain ⟨y, hy, hxy⟩ := ih hx
      exact ⟨y, List.mem_cons_of_mem _ hy, hxy⟩

theorem Records.stored (h : store.Records log) {entry : Source × Clause} (hentry : entry ∈ log) :
    ∃ clause ∈ store.problemClauses ++ store.additionClauses, clause.Perm entry.2 := by
  obtain ⟨watched, hwatched, hperm⟩ := exists_of_forall₂ (h entry.1).flip (mem_stock.2 hentry)
  have hmem : watched.literals ∈ (store.shelf entry.1).clauses :=
    List.mem_append_right _ (List.mem_map_of_mem hwatched)
  refine ⟨watched.literals, ?_, hperm⟩
  rcases hsource : entry.1 with _ | _ <;> rw [hsource] at hmem
  · exact List.mem_append_left _ hmem
  · exact List.mem_append_right _ hmem

theorem Records.logged (h : store.Records log) {key : ClauseKey} (hget : store.get? key = some watched) :
    ∃ entry ∈ log, watched.literals.Perm entry.2 := by
  cases key with
  | unit source literal => exact absurd hget (by simp [get?])
  | stored source index =>
    have hindex : (store.shelf source).stored[index]? = some watched := hget
    have hwatched := Array.mem_toList_iff.2 (Array.mem_of_getElem? hindex)
    obtain ⟨clause, hclause, hperm⟩ := exists_of_forall₂ (h source) hwatched
    exact ⟨(source, clause), mem_stock.1 hclause, hperm⟩

end ClauseStore

end Satisfiability.Search
