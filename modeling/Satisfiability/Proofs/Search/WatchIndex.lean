import Satisfiability.Proofs.Search.ClauseStore
import Satisfiability.Search.WatchIndex

/-!
# Who watches what

The operations on an index of watches, stated by the list of each literal. An index is exact for a
store (`WatchIndex.Exact`) if each clause is on the lists of its two watched literals, once, and on
no others.
-/

namespace Satisfiability.Search.WatchIndex

variable {index : WatchIndex} {store : ClauseStore}

@[simp]
theorem watching_addAtom (atom : Atom) (literal : Literal) :
    (index.addAtom atom).watching literal = index.watching literal := by
  unfold addAtom watching
  simp only [Array.getD_eq_getD_getElem?, Array.getElem?_append, Array.getElem?_replicate]
  split
  · rfl
  · rename_i hlt
    rw [Array.getElem?_eq_none (Nat.le_of_not_lt hlt)]
    split <;> rfl

@[simp]
theorem watching_setWatching (literal other : Literal) (keys : List ClauseKey) :
    (index.setWatching literal keys).watching other =
      if other = literal then keys else index.watching other := by
  have hroom : literal.atom < (index.addAtom literal.atom).lists.size := by
    simp only [addAtom, Array.size_append, Array.size_replicate]
    exact Nat.sub_le_iff_le_add'.1 (Nat.le_refl _)
  -- of the two lists of the atom, the one of the other sign stays
  have hother : (index.setWatching literal keys).watching other =
      if other.atom = literal.atom then
        (((index.addAtom literal.atom).lists.getD literal.atom {}).set literal.positive keys).get
          other.positive
      else (index.addAtom literal.atom).watching other := by
    unfold setWatching watching
    simp only [Array.getD_eq_getD_getElem?, Array.getElem?_modify]
    by_cases hatom : literal.atom = other.atom
    · rw [← hatom]
      simp [hroom]
    · simp [hatom, Ne.symm hatom]
  rw [hother, watching_addAtom]
  by_cases hatom : other.atom = literal.atom
  · rw [if_pos hatom]
    by_cases hsign : other.positive = literal.positive
    · have heq : other = literal := by
        cases other
        cases literal
        simp_all
      rw [if_pos heq, hsign]
      cases literal.positive <;> rfl
    · have hne : other ≠ literal := fun heq => hsign (congrArg Literal.positive heq)
      have hlists : (index.addAtom literal.atom).watching other = index.watching other :=
        watching_addAtom ..
      rw [if_neg hne, ← hlists]
      unfold watching
      rw [hatom]
      cases hl : literal.positive <;> cases ho : other.positive <;> simp_all [WatchLists.get, WatchLists.set]
  · have hne : other ≠ literal := fun heq => hatom (congrArg Literal.atom heq)
    rw [if_neg hatom, if_neg hne]

@[simp]
theorem watching_watch (key : ClauseKey) (literal other : Literal) :
    (index.watch key literal).watching other =
      if other = literal then index.watching literal ++ [key] else index.watching other :=
  watching_setWatching ..

@[simp]
theorem watching_restore (literal other : Literal) (keys : List ClauseKey) :
    (index.restore literal keys).watching other =
      if other = literal then keys ++ index.watching literal else index.watching other :=
  watching_setWatching ..

theorem take_fst (index : WatchIndex) (literal : Literal) :
    (index.take literal).1 = index.watching literal := by
  unfold take
  split
  · rfl
  · rename_i hlt
    unfold watching
    rw [Array.getD_eq_getD_getElem?, Array.getElem?_eq_none (Nat.le_of_not_lt hlt)]
    cases literal.positive <;> rfl

theorem watching_take (literal other : Literal) :
    (index.take literal).2.watching other =
      if other = literal then [] else index.watching other := by
  have hfst := take_fst index literal
  unfold take at hfst ⊢
  split
  · exact watching_setWatching ..
  · rename_i hlt
    rw [if_neg hlt] at hfst
    by_cases heq : other = literal
    · rw [if_pos heq, heq]
      exact hfst.symm
    · rw [if_neg heq]

/-- Each clause is on the lists of its two watched literals, once, and on no others. -/
structure Exact (store : ClauseStore) (index : WatchIndex) : Prop where
  nodup : ∀ literal, (index.watching literal).Nodup
  mem_iff : ∀ key literal, key ∈ index.watching literal ↔
    ∃ clause, store.get? key = some clause ∧ (clause.first = literal ∨ clause.second = literal)

theorem Exact.congr {index' : WatchIndex} (h : Exact store index)
    (hlists : ∀ literal, index'.watching literal = index.watching literal) :
    Exact store index' :=
  ⟨fun literal => by rw [hlists]; exact h.nodup literal,
    fun key literal => by rw [hlists]; exact h.mem_iff key literal⟩

theorem exact_empty : Exact {} {} := by
  have hlists : ∀ literal, ({} : WatchIndex).watching literal = [] := by
    intro literal
    unfold watching WatchLists.get
    split <;> simp
  refine ⟨fun literal => by rw [hlists]; exact .nil, ?_⟩
  intro key literal
  simp [hlists]

theorem Exact.watch_new {key : ClauseKey} {store' : ClauseStore} {clause : WatchedClause}
    (h : Exact store index) (hnew : store.get? key = none)
    (hget : ∀ other, store'.get? other = if other = key then some clause else store.get? other)
    (hdistinct : clause.first ≠ clause.second) :
    Exact store' ((index.watch key clause.first).watch key clause.second) := by
  -- the key is new, so it stands in no list yet
  have hnot : ∀ literal, key ∉ index.watching literal := by
    intro literal hmem
    obtain ⟨old, hold, _⟩ := (h.mem_iff key literal).1 hmem
    rw [hnew] at hold
    exact absurd hold (by simp)
  constructor
  · intro literal
    have hnodup := h.nodup literal
    have hnot := hnot literal
    simp only [watching_watch]
    split
    · rename_i hsecond
      subst hsecond
      rw [if_neg (Ne.symm hdistinct)]
      simpa [List.nodup_append] using ⟨hnodup, fun a ha => by rintro rfl; exact hnot ha⟩
    · split
      · rename_i hfirst
        subst hfirst
        simpa [List.nodup_append] using ⟨hnodup, fun a ha => by rintro rfl; exact hnot ha⟩
      · exact hnodup
  · intro other literal
    have hiff := h.mem_iff other literal
    have hnot := hnot literal
    simp only [watching_watch, hget]
    by_cases hother : other = key
    · subst hother
      grind
    · grind

theorem Exact.set_same {key : ClauseKey} {clause clause' : WatchedClause}
    (h : Exact store index) (hclause : store.get? key = some clause)
    (hsame : clause.SameWatches clause') : Exact (store.set key clause') index := by
  refine ⟨h.nodup, ?_⟩
  intro other literal
  rw [h.mem_iff, ClauseStore.get?_set hclause]
  by_cases hother : other = key
  · subst hother
    have hw := hsame.watches
    grind
  · rw [if_neg hother]

theorem Exact.set_found {key : ClauseKey} {clause : WatchedClause} (clause' : WatchedClause)
    {broken : Literal} {kept taken : List ClauseKey}
    (h : Exact store (index.restore broken (kept ++ key :: taken)))
    (hclause : store.get? key = some clause)
    (hsame : ∃ turned, clause.SameWatches turned ∧ turned.second = broken ∧
      clause'.first = turned.first)
    (hdistinct : clause.first ≠ clause.second)
    (hfirst : clause'.second ≠ clause'.first) (hbroken : clause'.second ≠ broken) :
    Exact (store.set key clause') ((index.watch key clause'.second).restore broken (kept ++ taken))
    := by
  obtain ⟨turned, hturned, hsecond, hfirst'⟩ := hsame
  have hmem := h.mem_iff
  have hnodup := h.nodup
  simp only [watching_restore] at hmem hnodup
  have hw := hturned.watches
  constructor
  · intro literal
    have hn := hnodup literal
    have hm := hmem key literal
    simp only [watching_restore, watching_watch]
    by_cases hl : literal = broken
    · subst hl
      rw [if_pos rfl] at hn ⊢
      rw [if_neg (Ne.symm hbroken)]
      have hsub : (kept ++ taken ++ index.watching literal).Sublist
          (kept ++ key :: taken ++ index.watching literal) :=
        ((List.Sublist.refl kept).append (List.sublist_cons_self _ _)).append (.refl _)
      exact hn.sublist hsub
    · rw [if_neg hl] at hn hm ⊢
      by_cases hl' : literal = clause'.second
      · rw [if_pos hl']
        have hnot : key ∉ index.watching literal := by
          intro hin
          obtain ⟨old, hold, hwatch⟩ := hm.1 hin
          grind
        rw [← hl']
        simpa [List.nodup_append] using ⟨hn, fun a ha => by rintro rfl; exact hnot ha⟩
      · rw [if_neg hl']
        exact hn
  · intro other literal
    have hm := hmem other literal
    have hnk := hnodup broken
    rw [if_pos rfl] at hnk
    -- the key was taken from the list of the broken literal, where it stood once
    have hnot : key ∉ kept ++ taken ++ index.watching broken := by
      have hperm : (kept ++ key :: taken ++ index.watching broken).Perm
          (key :: (kept ++ taken ++ index.watching broken)) := by
        rw [List.append_assoc, List.append_assoc]
        exact List.perm_middle
      exact (List.nodup_cons.1 (hperm.nodup_iff.1 hnk)).1
    simp only [watching_restore, watching_watch, ClauseStore.get?_set hclause]
    by_cases hother : other = key
    · subst hother
      by_cases hl : literal = broken
      · subst hl
        grind
      · grind
    · by_cases hl : literal = broken
      · subst hl
        grind
      · grind

end Satisfiability.Search.WatchIndex
