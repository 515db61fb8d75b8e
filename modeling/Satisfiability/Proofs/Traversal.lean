import Mathlib.Data.List.Forall2
import Mathlib.Data.List.Induction

/-!
# Traversals

A traversal with a partial function gives a list exactly if the function is defined on each element,
and then the list has the results in order. A fold that keeps the better one of the choice so far
and the present element ends with the best of all.
-/

namespace Satisfiability

variable {α β : Type} {f : α → Option β} {items : List α} {results : List β}

theorem mapM_eq_some_iff :
    items.mapM f = some results ↔ List.Forall₂ (fun item result => f item = some result) items results := by
  induction items generalizing results with
  | nil => simp [eq_comm]
  | cons item rest ih =>
    rw [List.mapM_cons]
    cases hitem : f item with
    | none =>
      refine ⟨fun h => absurd h (by simp), fun h => ?_⟩
      cases h with
      | cons hfirst _ => exact absurd (hitem.symm.trans hfirst) (by simp)
    | some result =>
      cases hrest : rest.mapM f with
      | none =>
        refine ⟨fun h => absurd h (by simp), fun h => ?_⟩
        cases h with
        | cons _ hmore => exact absurd (hrest.symm.trans (ih.2 hmore)) (by simp)
      | some more =>
        change some (result :: more) = some results ↔ _
        rw [Option.some.injEq]
        constructor
        · rintro rfl
          exact .cons hitem (ih.1 hrest)
        · rintro (_ | ⟨hfirst, hmore⟩)
          rw [Option.some.inj (hitem.symm.trans hfirst),
            Option.some.inj (hrest.symm.trans (ih.2 hmore))]

theorem exists_mapM_iff :
    (∃ results, items.mapM f = some results) ↔ ∀ item ∈ items, ∃ result, f item = some result := by
  induction items with
  | nil => exact ⟨fun _ => List.forall_mem_nil _, fun _ => ⟨[], rfl⟩⟩
  | cons item rest ih =>
    rw [List.mapM_cons, List.forall_mem_cons, ← ih]
    cases f item with
    | none => simp
    | some result => cases rest.mapM f <;> simp

/-! ## Choices -/

/-- A fold goes through elements, some of which are eligible, and keeps a choice. -/
structure Chooses (eligible : α → Prop) (key : α → β) (atLeast : β → β → Prop)
    (step : Option β → α → Option β) : Prop where
  skip : ∀ best item, ¬ eligible item → step best item = best
  first : ∀ item, eligible item → step none item = some (key item)
  next : ∀ best item, eligible item →
    (step (some best) item = some (key item) ∧ atLeast (key item) best) ∨
      (step (some best) item = some best ∧ atLeast best (key item))
  refl : ∀ best, atLeast best best
  trans : ∀ a b c, atLeast a b → atLeast b c → atLeast a c

/-- What a choice from some elements is: one of them at least as good as all others. -/
def Best (eligible : α → Prop) (key : α → β) (atLeast : β → β → Prop) (items : List α) :
    Option β → Prop
  | none => ∀ item ∈ items, ¬ eligible item
  | some best => (∃ item ∈ items, eligible item ∧ key item = best) ∧
      ∀ item ∈ items, eligible item → atLeast best (key item)

theorem Chooses.best {eligible : α → Prop} {key : α → β} {atLeast : β → β → Prop}
    {step : Option β → α → Option β} (h : Chooses eligible key atLeast step) (items : List α) :
    Best eligible key atLeast items (items.foldl step none) := by
  -- the invariant is the statement itself, for the elements seen so far
  induction items using List.reverseRecOn with
  | nil => exact List.forall_mem_nil _
  | append_singleton seen item ih =>
    rw [List.foldl_concat]
    have hitem : item ∈ seen ++ [item] := List.mem_append_right _ List.mem_cons_self
    by_cases heligible : eligible item
    · cases hbest : seen.foldl step none with
      | none =>
        rw [hbest] at ih
        rw [h.first item heligible]
        refine ⟨⟨item, hitem, heligible, rfl⟩, List.forall_mem_append.2 ⟨fun other hmem hother => ?_, ?_⟩⟩
        · exact absurd hother (ih other hmem)
        · exact List.forall_mem_singleton.2 fun _ => h.refl _
      | some best =>
        rw [hbest] at ih
        obtain ⟨⟨chosen, hchosen, hkey⟩, hall⟩ := ih
        rcases h.next best item heligible with ⟨hstep, hbetter⟩ | ⟨hstep, hbetter⟩ <;> rw [hstep]
        · refine ⟨⟨item, hitem, heligible, rfl⟩, List.forall_mem_append.2 ⟨fun other hmem hother => ?_, ?_⟩⟩
          · exact h.trans _ _ _ hbetter (hall other hmem hother)
          · exact List.forall_mem_singleton.2 fun _ => h.refl _
        · exact ⟨⟨chosen, List.mem_append_left _ hchosen, hkey⟩,
            List.forall_mem_append.2 ⟨hall, List.forall_mem_singleton.2 fun _ => hbetter⟩⟩
    · rw [h.skip _ item heligible]
      cases hbest : seen.foldl step none with
      | none =>
        rw [hbest] at ih
        exact List.forall_mem_append.2 ⟨ih, List.forall_mem_singleton.2 heligible⟩
      | some best =>
        rw [hbest] at ih
        obtain ⟨⟨chosen, hchosen, hkey⟩, hall⟩ := ih
        exact ⟨⟨chosen, List.mem_append_left _ hchosen, hkey⟩,
          List.forall_mem_append.2 ⟨hall, List.forall_mem_singleton.2 fun h => absurd h heligible⟩⟩

/-- A choice by the elements of a list alone, kept with the index of what is chosen. -/
theorem best_zipIdx (eligible : α → Prop) (key : α → β) (atLeast : β → β → Prop) {items : List α}
    {best : Option (ℕ × β)}
    (h : Best (fun entry : α × ℕ => eligible entry.1) (fun entry => (entry.2, key entry.1))
      (fun a b => atLeast a.2 b.2) items.zipIdx best) :
    (best = none → ∀ item ∈ items, ¬ eligible item) ∧
      ∀ index y, best = some (index, y) →
        (∃ item, items[index]? = some item ∧ eligible item ∧ key item = y) ∧
          ∀ item ∈ items, eligible item → atLeast y (key item) := by
  have hentry : ∀ item ∈ items, ∃ index, (item, index) ∈ items.zipIdx := fun item hmem => by
    obtain ⟨index, hindex⟩ := List.mem_iff_getElem?.1 hmem
    exact ⟨index, List.mem_zipIdx_iff_getElem?.2 hindex⟩
  constructor
  · rintro rfl item hmem
    obtain ⟨index, hindex⟩ := hentry item hmem
    exact h (item, index) hindex
  · rintro index y rfl
    obtain ⟨⟨⟨item, i⟩, hmem, heligible, hkey⟩, hall⟩ := h
    obtain ⟨rfl, rfl⟩ := Prod.mk.inj hkey
    refine ⟨⟨item, List.mem_zipIdx_iff_getElem?.1 hmem, heligible, rfl⟩, fun other hother hother' => ?_⟩
    obtain ⟨j, hj⟩ := hentry other hother
    exact hall (other, j) hj hother'

end Satisfiability
