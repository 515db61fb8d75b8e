import Mathlib.Data.List.Induction
import Mathlib.Data.List.Nodup
import Mathlib.Order.Defs.Unbundled
import Satisfiability.KeyMap

/-!
# Keys and values

Maps built by insertion list their keys in order (`KeyMap.ordered_ofList`), so that a key has a
value exactly if the two are listed as a pair (`KeyMap.Ordered.mem_toList`). A map of pairs with
different keys has these pairs and no others (`KeyMap.find?_ofList_eq_some`).
-/

namespace Satisfiability.KeyMap

variable {κ α : Type}

def Ordered [LT κ] (map : KeyMap κ α) : Prop := map.toList.Pairwise fun p q => p.1 < q.1

section lookup

variable [DecidableEq κ] {pairs : List (κ × α)} {map : KeyMap κ α} {key : κ} {x : α}

theorem mem_of_get? (h : get? key pairs = some x) : (key, x) ∈ pairs := by
  induction pairs with
  | nil => exact absurd h (by simp [get?])
  | cons pair rest ih =>
    unfold get? at h
    split at h
    · rename_i heq
      cases heq
      cases h
      exact List.mem_cons_self
    · exact List.mem_cons_of_mem _ (ih h)

theorem get?_eq_none_iff : get? key pairs = none ↔ key ∉ pairs.map Prod.fst := by
  induction pairs with
  | nil => simp [get?]
  | cons pair rest ih =>
    unfold get?
    split
    · rename_i heq
      simp [heq]
    · rename_i heq
      rw [ih, List.map_cons, List.mem_cons, not_or]
      exact ⟨fun h => ⟨Ne.symm heq, h⟩, fun h => h.2⟩

theorem get?_of_mem (hnodup : (pairs.map Prod.fst).Nodup) (h : (key, x) ∈ pairs) :
    get? key pairs = some x := by
  induction pairs with
  | nil => exact absurd h List.not_mem_nil
  | cons pair rest ih =>
    rw [List.map_cons, List.nodup_cons] at hnodup
    unfold get?
    rcases List.mem_cons.1 h with heq | hmem
    · rw [if_pos (by rw [← heq]), ← heq]
    · have hne : pair.1 ≠ key := fun heq => hnodup.1 (heq ▸ List.mem_map_of_mem hmem)
      rw [if_neg hne]
      exact ih hnodup.2 hmem

theorem eq_of_mem {x y : α} (hnodup : (pairs.map Prod.fst).Nodup) (h : (key, x) ∈ pairs)
    (h' : (key, y) ∈ pairs) : x = y :=
  Option.some.inj ((get?_of_mem hnodup h).symm.trans (get?_of_mem hnodup h'))

theorem mem_keys_iff : key ∈ map.keys ↔ ∃ x, map.find? key = some x := by
  rw [← Option.ne_none_iff_exists', ne_eq, find?, get?_eq_none_iff, not_not]
  rfl

end lookup

variable [DecidableEq κ] [LT κ] [DecidableLT κ] {pairs : List (κ × α)} {map : KeyMap κ α} {key : κ}
  {x : α}

theorem find?_ofList (pairs : List (κ × α)) (key : κ) :
    (ofList pairs).find? key = get? key pairs.reverse := by
  induction pairs using List.reverseRecOn with
  | nil => rfl
  | append_singleton rest pair ih =>
    rw [ofList, List.foldl_append, List.reverse_append]
    change KeyMap.find? (KeyMap.insert (ofList rest) pair.1 pair.2) key = get? key (pair :: _)
    rw [find?_insert, ih]
    rfl

theorem mem_of_find?_ofList (h : (ofList pairs).find? key = some x) : (key, x) ∈ pairs := by
  rw [find?_ofList] at h
  exact List.mem_reverse.1 (mem_of_get? h)

theorem find?_ofList_of_mem (hunique : ∀ y, (key, y) ∈ pairs → y = x) (h : (key, x) ∈ pairs) :
    (ofList pairs).find? key = some x := by
  cases hfind : (ofList pairs).find? key with
  | some y => rw [hunique y (mem_of_find?_ofList hfind)]
  | none =>
    rw [find?_ofList, get?_eq_none_iff, List.map_reverse, List.mem_reverse] at hfind
    exact absurd (List.mem_map_of_mem h) hfind

theorem find?_ofList_eq_some (hnodup : (pairs.map Prod.fst).Nodup) :
    (ofList pairs).find? key = some x ↔ (key, x) ∈ pairs := by
  refine ⟨mem_of_find?_ofList, fun h => find?_ofList_of_mem (fun y hy => ?_) h⟩
  exact eq_of_mem hnodup hy h

theorem mem_place {pair : κ × α} (h : pair ∈ place key x pairs) : pair = (key, x) ∨ pair ∈ pairs := by
  induction pairs with
  | nil => exact Or.inl (List.mem_singleton.1 h)
  | cons first rest ih =>
    unfold place at h
    split at h
    · rcases List.mem_cons.1 h with h | h
      · exact Or.inl h
      · exact Or.inr (List.mem_cons_of_mem _ h)
    · split at h
      · rcases List.mem_cons.1 h with h | h
        · exact Or.inr (h ▸ List.mem_cons_self)
        · exact (ih h).imp_right (List.mem_cons_of_mem _)
      · exact List.mem_cons.1 h

section order

variable [Std.Trichotomous ((· < ·) : κ → κ → Prop)] [IsTrans κ (· < ·)]

theorem pairwise_place (h : pairs.Pairwise fun p q => p.1 < q.1) :
    (place key x pairs).Pairwise fun p q => p.1 < q.1 := by
  induction pairs with
  | nil => exact List.pairwise_singleton _ _
  | cons first rest ih =>
    rw [List.pairwise_cons] at h
    unfold place
    split
    · rename_i heq
      exact List.pairwise_cons.2 ⟨fun pair hpair => heq ▸ h.1 pair hpair, h.2⟩
    · split
      · rename_i hlt
        refine List.pairwise_cons.2 ⟨fun pair hpair => ?_, ih h.2⟩
        rcases mem_place hpair with rfl | hpair
        · exact hlt
        · exact h.1 pair hpair
      · rename_i hne hnlt
        -- neither equal nor above, the key goes before
        have hlt : key < first.1 := by
          by_contra hnlt'
          exact hne (Std.Trichotomous.trichotomous _ _ hnlt hnlt')
        refine List.pairwise_cons.2 ⟨List.forall_mem_cons.2 ⟨hlt, fun pair hpair => ?_⟩,
          List.pairwise_cons.2 h⟩
        exact IsTrans.trans _ _ _ hlt (h.1 pair hpair)

theorem Ordered.insert (h : map.Ordered) : (map.insert key x).Ordered := pairwise_place h

theorem ordered_ofList (pairs : List (κ × α)) : (ofList pairs).Ordered := by
  induction pairs using List.reverseRecOn with
  | nil => exact List.Pairwise.nil
  | append_singleton rest pair ih =>
    rw [ofList, List.foldl_append]
    exact ih.insert

end order

omit [DecidableEq κ] [DecidableLT κ] in
theorem Ordered.filter (h : map.Ordered) (p : α → Bool) : (map.filter p).Ordered :=
  List.Pairwise.filter _ h

omit [DecidableEq κ] [DecidableLT κ] in
theorem Ordered.nodup_keys [Std.Irrefl ((· < ·) : κ → κ → Prop)] (h : map.Ordered) : map.keys.Nodup := by
  refine List.pairwise_map.2 (h.imp fun {p q} hlt heq => ?_)
  rw [heq] at hlt
  exact Std.Irrefl.irrefl _ hlt

omit [DecidableLT κ] in
theorem Ordered.mem_toList [Std.Irrefl ((· < ·) : κ → κ → Prop)] (h : map.Ordered) :
    (key, x) ∈ map.toList ↔ map.find? key = some x :=
  ⟨get?_of_mem h.nodup_keys, mem_of_get?⟩

end Satisfiability.KeyMap
