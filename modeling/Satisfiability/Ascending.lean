/-!
# Ascending lists

Finite sets kept as ascending lists, so that a set is listed in one order whatever the order of its
insertions. `insertAscending` works on any ordered type; `IndexSet` is the case of natural numbers,
with the order as part of the type, so that two index sets with the same members are equal
(`IndexSet.ext_mem`).
-/

namespace Satisfiability

def placeAscending {α : Type} [Ord α] (a : α) : List α → List α
  | [] => [a]
  | b :: rest => if (compare b a).isLT then b :: placeAscending a rest else a :: b :: rest

/-- Puts `a` behind the elements below it, unless it is in the list. -/
def insertAscending {α : Type} [BEq α] [Ord α] (a : α) (set : List α) : List α :=
  if set.contains a then set else placeAscending a set

def ascending {α : Type} [BEq α] [Ord α] (elements : List α) : List α :=
  elements.foldl (fun set a => insertAscending a set) []

theorem mem_placeAscending {α : Type} [Ord α] {a x : α} {set : List α} :
    x ∈ placeAscending a set ↔ x = a ∨ x ∈ set := by
  induction set with
  | nil => simp [placeAscending]
  | cons b rest ih => by_cases h : (compare b a).isLT <;> simp [placeAscending, h, ih, or_left_comm]

theorem mem_insertAscending {α : Type} [BEq α] [LawfulBEq α] [Ord α] {a x : α} {set : List α} :
    x ∈ insertAscending a set ↔ x = a ∨ x ∈ set := by
  unfold insertAscending
  split
  · rename_i h
    have : a ∈ set := by simpa using h
    exact ⟨Or.inr, fun h => h.elim (fun e => e ▸ this) id⟩
  · exact mem_placeAscending

theorem mem_ascending {α : Type} [BEq α] [LawfulBEq α] [Ord α] {x : α} {elements : List α} :
    x ∈ ascending elements ↔ x ∈ elements := by
  have hfold : ∀ set : List α,
      x ∈ elements.foldl (fun set a => insertAscending a set) set ↔ x ∈ set ∨ x ∈ elements := by
    induction elements with
    | nil => simp
    | cons first rest ih =>
      intro set
      rw [List.foldl_cons, ih, mem_insertAscending, List.mem_cons]
      exact ⟨fun h => h.elim (fun h => h.elim (Or.inr ∘ Or.inl) Or.inl) (Or.inr ∘ Or.inr),
        fun h => h.elim (Or.inl ∘ Or.inr) fun h => h.elim (Or.inl ∘ Or.inl) Or.inr⟩
  rw [ascending, hfold]
  simp

theorem ascending_eq_nil_iff {α : Type} [BEq α] [LawfulBEq α] [Ord α] {elements : List α} :
    ascending elements = [] ↔ elements = [] := by
  simp only [List.eq_nil_iff_forall_not_mem, mem_ascending]

theorem perm_placeAscending {α : Type} [Ord α] (a : α) (set : List α) :
    (placeAscending a set).Perm (a :: set) := by
  induction set with
  | nil => exact List.Perm.refl _
  | cons b rest ih =>
    unfold placeAscending
    split
    · exact (ih.cons b).trans (List.Perm.swap a b rest)
    · exact List.Perm.refl _

theorem nodup_insertAscending {α : Type} [BEq α] [LawfulBEq α] [Ord α] {a : α} {set : List α}
    (h : set.Nodup) : (insertAscending a set).Nodup := by
  unfold insertAscending
  split
  · exact h
  · rename_i hmem
    rw [(perm_placeAscending a set).nodup_iff, List.nodup_cons]
    exact ⟨fun ha => hmem (List.contains_iff_mem.2 ha), h⟩

theorem nodup_ascending {α : Type} [BEq α] [LawfulBEq α] [Ord α] (elements : List α) :
    (ascending elements).Nodup := by
  have hfold : ∀ set : List α, set.Nodup →
      (elements.foldl (fun set a => insertAscending a set) set).Nodup := by
    induction elements with
    | nil => exact fun _ h => h
    | cons first rest ih => exact fun set h => ih _ (nodup_insertAscending h)
  exact hfold [] List.nodup_nil

/-- A finite set of indices, listed from the smallest. -/
structure IndexSet where
  toList : List Nat
  ascending : toList.Pairwise (· < ·) := by simp

namespace IndexSet

instance : DecidableEq IndexSet := fun s t =>
  decidable_of_iff (s.toList = t.toList)
    ⟨fun h => by cases s; cases t; cases h; rfl, fun h => h ▸ rfl⟩

instance : Membership Nat IndexSet := ⟨fun s n => n ∈ s.toList⟩

instance (n : Nat) (s : IndexSet) : Decidable (n ∈ s) := inferInstanceAs (Decidable (n ∈ s.toList))

theorem mem_toList {n : Nat} {s : IndexSet} : n ∈ s.toList ↔ n ∈ s := Iff.rfl

def empty : IndexSet := { toList := [] }

instance : EmptyCollection IndexSet := ⟨empty⟩

instance : Inhabited IndexSet := ⟨empty⟩

def place (n : Nat) : List Nat → List Nat
  | [] => [n]
  | m :: rest =>
    if m < n then m :: place n rest else if m = n then m :: rest else n :: m :: rest

theorem mem_place {n x : Nat} {l : List Nat} : x ∈ place n l ↔ x = n ∨ x ∈ l := by
  induction l with
  | nil => simp [place]
  | cons m rest ih =>
    unfold place
    split
    · simp [ih, or_left_comm]
    · split
      · rename_i h; subst h; simp
      · simp

theorem pairwise_place {n : Nat} {l : List Nat} (h : l.Pairwise (· < ·)) :
    (place n l).Pairwise (· < ·) := by
  induction l with
  | nil => simp [place]
  | cons m rest ih =>
    rw [List.pairwise_cons] at h
    unfold place
    split
    · refine List.pairwise_cons.2 ⟨fun x hx => ?_, ih h.2⟩
      rcases mem_place.1 hx with rfl | hx
      · assumption
      · exact h.1 x hx
    · split
      · exact List.pairwise_cons.2 h
      · have : n < m := by omega
        refine List.pairwise_cons.2 ⟨fun x hx => ?_, List.pairwise_cons.2 h⟩
        rcases List.mem_cons.1 hx with rfl | hx
        · exact this
        · exact Nat.lt_trans this (h.1 x hx)

def insert (s : IndexSet) (n : Nat) : IndexSet := ⟨place n s.toList, pairwise_place s.ascending⟩

def erase (s : IndexSet) (n : Nat) : IndexSet :=
  ⟨s.toList.filter (· != n), s.ascending.filter _⟩

def insertAll (s : IndexSet) (indices : List Nat) : IndexSet := indices.foldl insert s

def ofList (indices : List Nat) : IndexSet := empty.insertAll indices

@[simp]
theorem not_mem_empty {x : Nat} : ¬ x ∈ (∅ : IndexSet) := by
  rw [← mem_toList]
  exact List.not_mem_nil

@[simp]
theorem mem_insert {s : IndexSet} {n x : Nat} : x ∈ s.insert n ↔ x = n ∨ x ∈ s := mem_place

@[simp]
theorem mem_erase {s : IndexSet} {n x : Nat} : x ∈ s.erase n ↔ x ∈ s ∧ x ≠ n := by
  simp [← mem_toList, erase]

@[simp]
theorem mem_insertAll {s : IndexSet} {indices : List Nat} {x : Nat} :
    x ∈ s.insertAll indices ↔ x ∈ indices ∨ x ∈ s := by
  induction indices generalizing s with
  | nil => simp [insertAll]
  | cons n rest ih =>
    rw [insertAll, List.foldl_cons, ← insertAll, ih]
    simp [or_left_comm, or_assoc]

@[simp]
theorem mem_ofList {indices : List Nat} {x : Nat} : x ∈ ofList indices ↔ x ∈ indices := by
  unfold ofList
  rw [mem_insertAll]
  exact or_iff_left not_mem_empty

theorem eq_of_pairwise_of_mem {l m : List Nat} (hl : l.Pairwise (· < ·)) (hm : m.Pairwise (· < ·))
    (h : ∀ x, x ∈ l ↔ x ∈ m) : l = m := by
  induction l generalizing m with
  | nil =>
    cases m with
    | nil => rfl
    | cons b m => exact absurd ((h b).2 List.mem_cons_self) List.not_mem_nil
  | cons a l ih =>
    cases m with
    | nil => exact absurd ((h a).1 List.mem_cons_self) List.not_mem_nil
    | cons b m =>
      rw [List.pairwise_cons] at hl hm
      -- both heads are the least element of the one set
      have hab : a = b := by
        rcases List.mem_cons.1 ((h a).1 List.mem_cons_self) with h1 | h1
        · exact h1
        · rcases List.mem_cons.1 ((h b).2 List.mem_cons_self) with h2 | h2
          · exact h2.symm
          · have := hl.1 b h2; have := hm.1 a h1; omega
      subst hab
      rw [ih hl.2 hm.2]
      intro x
      constructor
      · intro hx
        rcases List.mem_cons.1 ((h x).1 (List.mem_cons_of_mem _ hx)) with h1 | h1
        · have := hl.1 x hx; omega
        · exact h1
      · intro hx
        rcases List.mem_cons.1 ((h x).2 (List.mem_cons_of_mem _ hx)) with h1 | h1
        · have := hm.1 x hx; omega
        · exact h1

theorem ext_mem {s t : IndexSet} (h : ∀ x, x ∈ s ↔ x ∈ t) : s = t := by
  have := eq_of_pairwise_of_mem s.ascending t.ascending h
  cases s; cases t; cases this; rfl

end IndexSet

end Satisfiability
