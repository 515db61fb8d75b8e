import Satisfiability.Proofs.Search.IndexHeap
import Satisfiability.Search.AtomTable

/-!
# Values and activities of atoms

A table is coherent if each atom has an activity and every atom without a value is on the heap
(`AtomTable.Coherent`). Each operation is stated by what it does to the placements; all of them
succeed for atoms of the table and keep it coherent, whatever the activities are. So an atom without
a value is always found if there is one (`Coherent.mostActive?_spec`).
-/

namespace Satisfiability.Search.AtomTable

variable {α : Type} {table table' : AtomTable α}

structure Coherent (table : AtomTable α) : Prop where
  inverse : table.activities.Inverse
  sizes : table.activities.values.size = table.entries.size
  active : ∀ atom < table.count, table.placement? atom = none →
    table.activities.isActive atom = true

structure SamePlacements (table table' : AtomTable α) : Prop where
  count : table'.count = table.count
  name : ∀ atom, table'.name? atom = table.name? atom
  placement : ∀ atom, table'.placement? atom = table.placement? atom

theorem valuation_eq_none {atom : Atom} :
    table.valuation atom = none ↔ table.placement? atom = none := by simp [valuation]

theorem lt_count_of_placement {atom : Atom} {placement : Placement}
    (h : table.placement? atom = some placement) : atom < table.count := by
  unfold placement? at h
  rw [Option.bind_eq_some_iff] at h
  obtain ⟨_, hentry, _⟩ := h
  exact (Array.getElem?_eq_some_iff.1 hentry).1

theorem SamePlacements.valuation (h : table.SamePlacements table') :
    table'.valuation = table.valuation := by
  funext atom
  simp [AtomTable.valuation, h.placement]

theorem SamePlacements.refl (table : AtomTable α) : table.SamePlacements table :=
  ⟨rfl, fun _ => rfl, fun _ => rfl⟩

theorem SamePlacements.trans {table'' : AtomTable α} (h : table.SamePlacements table')
    (h' : table'.SamePlacements table'') : table.SamePlacements table'' :=
  ⟨h'.count.trans h.count, fun atom => (h'.name atom).trans (h.name atom),
    fun atom => (h'.placement atom).trans (h.placement atom)⟩

theorem samePlacements_of_entries (h : table'.entries = table.entries) :
    table.SamePlacements table' :=
  ⟨by simp [count, h], fun _ => by simp [name?, h], fun _ => by simp [placement?, h]⟩

theorem coherent_empty : ({} : AtomTable α).Coherent :=
  ⟨IndexHeap.inverse_empty, rfl, fun _ h => absurd h (Nat.not_lt_zero _)⟩

/-! ## Atoms by name -/

theorem name?_of_lastNamed? {name : String} {bound : Nat} {atom : Atom}
    (h : table.lastNamed? name bound = some atom) : table.name? atom = some name := by
  induction bound with
  | zero => exact absurd h (by simp [lastNamed?])
  | succ bound ih =>
    unfold lastNamed? at h
    split at h
    · rename_i hname
      exact Option.some.inj h ▸ hname
    · exact ih h

theorem name?_ne_of_lastNamed? {name : String} {bound : Nat}
    (h : table.lastNamed? name bound = none) {atom : Atom} (hlt : atom < bound) :
    table.name? atom ≠ some name := by
  induction bound with
  | zero => exact absurd hlt (Nat.not_lt_zero _)
  | succ bound ih =>
    unfold lastNamed? at h
    split at h
    · exact absurd h (by simp)
    · rename_i hname
      rcases Nat.lt_succ_iff_lt_or_eq.1 hlt with hlt | rfl
      · exact ih h hlt
      · exact hname

/-! ## Placing values -/

theorem place?_spec {atom : Atom} (hatom : atom < table.count) (placement : Option Placement) :
    ∃ table', table.place? atom placement = some table' ∧
      table'.activities = table.activities ∧ table'.count = table.count ∧
      (∀ other, table'.name? other = table.name? other) ∧
      ∀ other, table'.placement? other = if other = atom then placement else table.placement? other := by
  have hentry : table.entries[atom]? = some table.entries[atom] := Array.getElem?_eq_getElem hatom
  have hplace : table.place? atom placement = some { table with
      entries := table.entries.setIfInBounds atom { table.entries[atom] with placement } } := by
    simp [place?, hentry]
  refine ⟨_, hplace, rfl, by simp [count], ?_, ?_⟩
  · intro other
    simp only [name?, Array.getElem?_setIfInBounds]
    by_cases hother : atom = other
    · subst hother
      have hlt : atom < table.entries.size := hatom
      simp only [hlt, if_true, hentry, Option.map_some]
    · simp [hother]
  · intro other
    simp only [placement?, Array.getElem?_setIfInBounds]
    by_cases hother : atom = other
    · subst hother
      have hlt : atom < table.entries.size := hatom
      simp [hlt]
    · simp [hother, Ne.symm hother]

theorem Coherent.setValue?_spec (hcoherent : table.Coherent) {literal : Literal}
    (hatom : literal.atom < table.count) (level position : Nat) :
    ∃ table', table.setValue? literal level position = some table' ∧ table'.Coherent ∧
      table'.count = table.count ∧ (∀ other, table'.name? other = table.name? other) ∧
      ∀ other, table'.placement? other =
        if other = literal.atom then some ⟨literal.positive, level, position⟩
        else table.placement? other := by
  obtain ⟨table', hplace, hactivities, hcount, hname, hplacement⟩ :=
    place?_spec hatom (some ⟨literal.positive, level, position⟩)
  refine ⟨table', hplace, ⟨?_, ?_, ?_⟩, hcount, hname, hplacement⟩
  · rw [hactivities]
    exact hcoherent.inverse
  · rw [hactivities, hcoherent.sizes]
    exact hcount.symm
  · intro atom hlt hnone
    rw [hactivities]
    rw [hplacement] at hnone
    split at hnone
    · exact absurd hnone (by simp)
    · exact hcoherent.active atom (by omega) hnone

section

variable [Scalar α]

theorem Coherent.dropValue?_spec (hcoherent : table.Coherent) {atom : Atom}
    (hatom : atom < table.count) :
    ∃ table', table.dropValue? atom = some table' ∧ table'.Coherent ∧
      table'.count = table.count ∧ (∀ other, table'.name? other = table.name? other) ∧
      ∀ other, table'.placement? other = if other = atom then none else table.placement? other := by
  obtain ⟨table₁, hplace, hactivities, hcount, hname, hplacement⟩ := place?_spec hatom none
  have hinv : table₁.activities.Inverse := by
    rw [hactivities]
    exact hcoherent.inverse
  have hlt : atom < table₁.activities.values.size := by
    rw [hactivities, hcoherent.sizes]
    exact hatom
  obtain ⟨added, activities, hactivate, hinv', hvalues, hactive⟩ := hinv.activate?_active hlt
  refine ⟨{ table₁ with activities }, by simp [dropValue?, hplace, hactivate], ⟨hinv', ?_, ?_⟩,
    hcount, hname, hplacement⟩
  · simp only [hvalues, hactivities, hcoherent.sizes]
    exact hcount.symm
  · intro other hother hnone
    have hnone' : table₁.placement? other = none := hnone
    rw [hplacement] at hnone'
    simp only [hactive, hactivities, Bool.or_eq_true, decide_eq_true_eq]
    split at hnone'
    · exact Or.inl ‹_›
    · have hlt' : other < table.count := by rw [← hcount]; exact hother
      exact Or.inr (hcoherent.active other hlt' hnone')

theorem Coherent.bump?_spec (hcoherent : table.Coherent) (amount : α) {atom : Atom}
    (hatom : atom < table.count) :
    ∃ table', table.bump? amount atom = some table' ∧ table'.Coherent ∧
      table.SamePlacements table' := by
  have hlt : atom < table.activities.values.size := by rw [hcoherent.sizes]; exact hatom
  obtain ⟨activities, hmodify, hinv, hcount, -, hactive⟩ :=
    hcoherent.inverse.modify?_active hlt fun a => { a with weight := a.weight + amount }
  refine ⟨{ table with activities }, by simp [bump?, hmodify], ⟨hinv, ?_, ?_⟩,
    samePlacements_of_entries rfl⟩
  · exact hcount.trans hcoherent.sizes
  · intro other hother hnone
    rw [hactive]
    exact hcoherent.active other hother hnone

theorem Coherent.decay (hcoherent : table.Coherent) (factor : α) :
    (table.decay factor).Coherent ∧ table.SamePlacements (table.decay factor) :=
  ⟨⟨hcoherent.inverse.mapValues _, by simpa [AtomTable.decay, IndexHeap.mapValues] using
    hcoherent.sizes, hcoherent.active⟩, samePlacements_of_entries rfl⟩

/-! ## Atoms without a value -/

theorem Coherent.mostActiveWithin?_spec (hcoherent : table.Coherent) (steps : Nat)
    (hsteps : table.activities.heap.size < steps) :
    ∃ atom table', table.mostActiveWithin? steps = some (atom, table') ∧ table'.Coherent ∧
      table.SamePlacements table' ∧
      match atom with
      | none => ∀ other < table.count, table.placement? other ≠ none
      | some atom => atom < table.count ∧ table.placement? atom = none := by
  -- an atom with a value is taken off, so the heap gets smaller
  induction steps generalizing table with
  | zero => exact absurd hsteps (Nat.not_lt_zero _)
  | succ steps ih =>
    rw [mostActiveWithin?]
    rcases htop : table.activities.top? with _ | atom
    · refine ⟨none, table, rfl, hcoherent, .refl _, ?_⟩
      intro other hother hnone
      have hmem := hcoherent.inverse.isActive_iff_mem.1 (hcoherent.active other hother hnone)
      unfold IndexHeap.top? at htop
      rw [Array.getElem?_eq_none_iff] at htop
      obtain ⟨place, hplace, _⟩ := Array.mem_iff_getElem.1 hmem
      omega
    · have hlt := hcoherent.inverse.lt_of_heap htop
      by_cases hvalue : (table.valuation atom).isNone
      · refine ⟨some atom, table, by simp [hvalue], hcoherent, .refl _, ?_, ?_⟩
        · rw [hcoherent.sizes] at hlt
          exact hlt
        · rw [Option.isNone_iff_eq_none] at hvalue
          exact valuation_eq_none.1 hvalue
      · obtain ⟨removed, activities, hremove, hinv, hvalues, hsize, hactive⟩ :=
          hcoherent.inverse.remove?_active hlt
        have hless := hsize
          (hcoherent.inverse.isActive_iff_mem.2 (Array.mem_of_getElem? htop))
        have hcoherent₁ : Coherent { table with activities } := by
          refine ⟨hinv, by simpa [hvalues] using hcoherent.sizes, ?_⟩
          intro other hother hnone
          rw [hactive, Bool.and_eq_true, Bool.not_eq_true', decide_eq_false_iff_not]
          refine ⟨?_, hcoherent.active other hother hnone⟩
          rintro rfl
          apply hvalue
          rw [Option.isNone_iff_eq_none]
          exact valuation_eq_none.2 hnone
        have hsame₁ : table.SamePlacements { table with activities } :=
          samePlacements_of_entries rfl
        obtain ⟨atom', table', hrest, hcoherent', hsame, hspec⟩ :=
          ih hcoherent₁ (by simp only; omega)
        exact ⟨atom', table', by simp [hvalue, hremove, hrest], hcoherent',
          hsame₁.trans hsame, hspec⟩

/-- The most active atom without a value is found if there is any such atom. -/
theorem Coherent.mostActive?_spec (hcoherent : table.Coherent) :
    ∃ atom table', table.mostActive? = some (atom, table') ∧ table'.Coherent ∧
      table.SamePlacements table' ∧
      match atom with
      | none => ∀ other < table.count, table.placement? other ≠ none
      | some atom => atom < table.count ∧ table.placement? atom = none :=
  hcoherent.mostActiveWithin?_spec _ (Nat.lt_succ_self _)

end

theorem mem_unvalued {atom : Atom} :
    atom ∈ table.unvalued ↔ atom < table.count ∧ table.placement? atom = none := by
  simp [unvalued, Valuation.unvalued, valuation]

/-! ## New atoms -/

theorem placement?_of_push {name : String} (h : table'.entries = table.entries.push { name })
    (atom : Atom) : table'.placement? atom = table.placement? atom := by
  unfold placement?
  rw [h, Array.getElem?_push]
  split
  · rename_i heq
    rw [heq, Array.getElem?_eq_none (Nat.le_refl _)]
    rfl
  · rfl

theorem isFull_iff : table.isFull ↔ greatestAtom < table.count := decide_eq_true_iff

theorem room_of_fresh? [Scalar α] {name : String} {new : Atom × AtomTable α}
    (h : table.fresh? name = some new) : ¬ table.isFull := by
  intro hfull
  rw [fresh?, if_pos hfull] at h
  cases h

theorem of_fresh? [Scalar α] {name : String} {atom : Atom} {table' : AtomTable α}
    (h : table.fresh? name = some (atom, table')) :
    atom = table.count ∧ table'.count = table.count + 1 := by
  rw [fresh?, if_neg (room_of_fresh? h)] at h
  obtain ⟨⟨_, added⟩, _, h⟩ := Option.bind_eq_some_iff.1 h
  obtain ⟨⟨_, activities⟩, _, h⟩ := Option.bind_eq_some_iff.1 h
  cases h
  exact ⟨rfl, Array.size_push ..⟩

theorem Coherent.fresh?_spec [Scalar α] (hcoherent : table.Coherent) (hroom : ¬ table.isFull)
    (name : String) : ∃ table', table.fresh? name = some (table.count, table') ∧ table'.Coherent ∧
      table'.entries = table.entries.push { name } := by
  obtain ⟨fresh, activities, hadd, hinv, hadded, hactive⟩ :=
    hcoherent.inverse.add?_active table.count ⟨Scalar.zero, table.count⟩
  have hsize : activities.values.size = table.entries.size + 1 := by
    have hgrown : activities.values.size = max table.activities.count (table.count + 1) := by
      rw [hadded]
      exact IndexHeap.count_grown table.count _
    rw [hgrown, show table.activities.count = table.count from hcoherent.sizes]
    exact Nat.max_eq_right (Nat.le_succ _)
  have hlt : table.count < activities.values.size := by rw [hsize]; exact Nat.lt_succ_self _
  obtain ⟨added, activities', hactivate, hinv', hvalues, hactive'⟩ := hinv.activate?_active hlt
  refine ⟨{ entries := table.entries.push { name }, activities := activities' },
    by simp [fresh?, hroom, hadd, hactivate], ⟨hinv', ?_, ?_⟩, rfl⟩
  · simp [hvalues, hsize]
  · intro atom hatom hnone
    simp only [hactive', hactive, Bool.or_eq_true, decide_eq_true_eq]
    simp only [count, Array.size_push] at hatom
    by_cases hlast : atom = table.count
    · exact Or.inl hlast
    · refine Or.inr (hcoherent.active atom (by unfold count at *; omega) ?_)
      unfold placement? at hnone ⊢
      rwa [Array.getElem?_push_lt (by unfold count at hlast; omega), ← Array.getElem?_eq_getElem] at hnone

end Satisfiability.Search.AtomTable
