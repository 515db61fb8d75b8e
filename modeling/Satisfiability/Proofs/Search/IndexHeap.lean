import Satisfiability.Search.IndexHeap

/-!
# Which indices are on a heap

The table of places is the inverse of the heap (`IndexHeap.Inverse`). Every operation keeps it so,
whatever the values are and however they are ordered, and finds all entries it asks for. Moving
indices about (`IndexHeap.Rearranged`) puts none on the heap and takes none off.
-/

namespace Satisfiability.Search.IndexHeap

variable {V : Type} {h h' : IndexHeap V}

/-- The table of places says where each index of the heap stands, and has no other place. -/
structure Inverse (h : IndexHeap V) : Prop where
  sizes : h.places.size = h.values.size
  place_iff : ∀ index place : Nat,
    h.places[index]? = some (some place) ↔ h.heap[place]? = some index

structure Rearranged (h h' : IndexHeap V) : Prop where
  inverse : h'.Inverse
  values : h'.values = h.values
  size : h'.heap.size = h.heap.size
  active : ∀ index, h'.isActive index = h.isActive index

theorem guard_eq_some {p : Prop} [Decidable p] (h : p) : (guard p : Option Unit) = some () :=
  if_pos h

theorem isActive_iff {index : Nat} :
    h.isActive index = true ↔ ∃ place, h.places[index]? = some (some place) := by
  unfold isActive
  rcases hp : h.places[index]? with _ | _ | place <;> simp

theorem Inverse.isActive_iff_mem (hinv : h.Inverse) {index : Nat} :
    h.isActive index = true ↔ index ∈ h.heap := by
  rw [isActive_iff, Array.mem_iff_getElem?]
  simp only [hinv.place_iff]

theorem Inverse.lt_of_heap (hinv : h.Inverse) {place index : Nat}
    (hplace : h.heap[place]? = some index) : index < h.values.size := by
  have hi := (hinv.place_iff index place).2 hplace
  rw [← hinv.sizes]
  exact (Array.getElem?_eq_some_iff.1 hi).1

theorem Inverse.place_unique (hinv : h.Inverse) {a b index : Nat}
    (ha : h.heap[a]? = some index) (hb : h.heap[b]? = some index) : a = b := by
  have ha' := (hinv.place_iff index a).2 ha
  have hb' := (hinv.place_iff index b).2 hb
  rw [ha'] at hb'
  simpa using hb'

theorem Rearranged.refl (hinv : h.Inverse) : h.Rearranged h := ⟨hinv, rfl, rfl, fun _ => rfl⟩

theorem Rearranged.trans {h'' : IndexHeap V} (h₁ : h.Rearranged h') (h₂ : h'.Rearranged h'') :
    h.Rearranged h'' :=
  ⟨h₂.inverse, h₂.values.trans h₁.values, h₂.size.trans h₁.size,
    fun index => (h₂.active index).trans (h₁.active index)⟩

theorem Inverse.mapValues (hinv : h.Inverse) (f : V → V) : (h.mapValues f).Inverse :=
  ⟨by simpa [IndexHeap.mapValues] using hinv.sizes, hinv.place_iff⟩

theorem inverse_empty : ({} : IndexHeap V).Inverse := ⟨rfl, by simp⟩

/-! ## Moving indices about -/

theorem Inverse.above?_isSome [Priority V] (hinv : h.Inverse) {a b : Nat} (ha : a < h.heap.size)
    (hb : b < h.heap.size) : ∃ answer, h.above? a b = some answer := by
  have hi := hinv.lt_of_heap (Array.getElem?_eq_getElem ha)
  have hj := hinv.lt_of_heap (Array.getElem?_eq_getElem hb)
  simp [above?, ha, hb, hi, hj]

theorem Inverse.swap?_eq (hinv : h.Inverse) {a b i j : Nat} (ha : h.heap[a]? = some i)
    (hb : h.heap[b]? = some j) : h.swap? a b = some { h with
      heap := (h.heap.setIfInBounds a j).setIfInBounds b i
      places := (h.places.setIfInBounds j (some a)).setIfInBounds i (some b) } := by
  have hi := hinv.lt_of_heap ha
  have hj := hinv.lt_of_heap hb
  rw [← hinv.sizes] at hi hj
  rw [swap?, ha, hb]
  change Option.bind (guard (i < h.places.size ∧ j < h.places.size)) _ = _
  rw [guard_eq_some ⟨hi, hj⟩]
  rfl

theorem Inverse.swap?_rearranged (hinv : h.Inverse) {a b : Nat} (ha : a < h.heap.size)
    (hb : b < h.heap.size) : ∃ h', h.swap? a b = some h' ∧ h.Rearranged h' := by
  have hgi := Array.getElem?_eq_getElem ha
  have hgj := Array.getElem?_eq_getElem hb
  generalize h.heap[a] = i at hgi
  generalize h.heap[b] = j at hgj
  have hi := hinv.lt_of_heap hgi
  have hj := hinv.lt_of_heap hgj
  have hpi := (hinv.place_iff _ _).2 hgi
  have hpj := (hinv.place_iff _ _).2 hgj
  rw [← hinv.sizes] at hi hj
  refine ⟨_, hinv.swap?_eq hgi hgj, ⟨⟨?_, ?_⟩, rfl, ?_, ?_⟩⟩
  · simpa using hinv.sizes
  · intro index place
    have hiff := hinv.place_iff index place
    have hunique : ∀ c d : Nat, h.heap[c]? = some index → h.heap[d]? = some index → c = d :=
      fun c d => hinv.place_unique
    simp only [Array.getElem?_setIfInBounds, Array.size_setIfInBounds]
    grind only
  · simp
  · intro index
    rw [Bool.eq_iff_iff, isActive_iff, isActive_iff]
    simp only [Array.getElem?_setIfInBounds, Array.size_setIfInBounds]
    grind only

variable [Priority V]

theorem Inverse.siftUp?_rearranged (hinv : h.Inverse) {place : Nat} (hplace : place < h.heap.size) :
    ∃ h', h.siftUp? place = some h' ∧ h.Rearranged h' := by
  induction place using Nat.strongRecOn generalizing h with
  | ind place ih =>
    rw [siftUp?]
    by_cases hzero : place = 0
    · exact ⟨h, by simp [hzero], .refl hinv⟩
    · obtain ⟨answer, hanswer⟩ := hinv.above?_isSome hplace
        (show (place - 1) / 2 < h.heap.size by omega)
      cases answer
      · exact ⟨h, by simp [hzero, hanswer], .refl hinv⟩
      · obtain ⟨h₁, hswap, hre₁⟩ := hinv.swap?_rearranged hplace
          (show (place - 1) / 2 < h.heap.size by omega)
        have hbound : (place - 1) / 2 < h₁.heap.size := by rw [hre₁.size]; omega
        obtain ⟨h₂, hsift, hre₂⟩ := ih ((place - 1) / 2) (by omega) hre₁.inverse hbound
        exact ⟨h₂, by simp [hzero, hanswer, hswap, hsift], hre₁.trans hre₂⟩

theorem Inverse.higher?_lt (hinv : h.Inverse) {a b : Nat} (ha : a < h.heap.size) :
    ∃ c, h.higher? a b = some c ∧ c < h.heap.size := by
  unfold higher?
  by_cases hb : b < h.heap.size
  · obtain ⟨answer, hanswer⟩ := hinv.above?_isSome hb ha
    cases answer
    · exact ⟨a, by simp [hb, hanswer], ha⟩
    · exact ⟨b, by simp [hb, hanswer], hb⟩
  · exact ⟨a, by simp [hb], ha⟩

theorem Inverse.siftDownWithin?_rearranged (hinv : h.Inverse) {place : Nat}
    (hplace : place < h.heap.size) (steps : Nat) :
    ∃ h', h.siftDownWithin? place steps = some h' ∧ h.Rearranged h' := by
  induction steps generalizing h place with
  | zero => exact ⟨h, rfl, .refl hinv⟩
  | succ steps ih =>
    obtain ⟨a, ha, halt⟩ := hinv.higher?_lt (b := 2 * place + 1) hplace
    obtain ⟨b, hb, hblt⟩ := hinv.higher?_lt (b := 2 * place + 2) halt
    rw [siftDownWithin?]
    by_cases hstop : b = place
    · exact ⟨h, by simp [ha, hb, hstop], .refl hinv⟩
    · obtain ⟨h₁, hswap, hre₁⟩ := hinv.swap?_rearranged hplace hblt
      obtain ⟨h₂, hsift, hre₂⟩ := ih hre₁.inverse (show b < h₁.heap.size by rw [hre₁.size]; exact hblt)
      exact ⟨h₂, by simp [ha, hb, hstop, hswap, hsift], hre₁.trans hre₂⟩

theorem Inverse.siftDown?_rearranged (hinv : h.Inverse) {place : Nat}
    (hplace : place < h.heap.size) : ∃ h', h.siftDown? place = some h' ∧ h.Rearranged h' :=
  hinv.siftDownWithin?_rearranged hplace _

theorem Inverse.reorder?_rearranged (hinv : h.Inverse) {index : Nat}
    (hindex : index < h.values.size) : ∃ h', h.reorder? index = some h' ∧ h.Rearranged h' := by
  have hplaces : index < h.places.size := by rw [hinv.sizes]; exact hindex
  unfold reorder?
  rcases hp : h.places[index]? with _ | _ | place
  · rw [Array.getElem?_eq_getElem hplaces] at hp
    exact absurd hp (by simp)
  · exact ⟨h, by simp, .refl hinv⟩
  · have hheap := (hinv.place_iff index place).1 hp
    obtain ⟨h₁, hup, hre₁⟩ :=
      hinv.siftUp?_rearranged (Array.getElem?_eq_some_iff.1 hheap).1
    obtain ⟨place₁, hp₁⟩ := isActive_iff.1
      ((hre₁.active index).trans (isActive_iff.2 ⟨place, hp⟩))
    have hheap₁ := (hre₁.inverse.place_iff index place₁).1 hp₁
    obtain ⟨h₂, hdown, hre₂⟩ :=
      hre₁.inverse.siftDown?_rearranged (Array.getElem?_eq_some_iff.1 hheap₁).1
    exact ⟨h₂, by simp [hup, hp₁, hdown], hre₁.trans hre₂⟩

/-! ## Putting indices on the heap and taking them off -/

theorem Inverse.modify?_active (hinv : h.Inverse) {index : Nat} (hindex : index < h.values.size)
    (f : V → V) : ∃ h', h.modify? index f = some h' ∧ h'.Inverse ∧ h'.count = h.count ∧
      (∀ i, h'.value? i = if i = index then (h.value? i).map f else h.value? i) ∧
      ∀ i, h'.isActive i = h.isActive i := by
  have hinv₁ : Inverse { h with values := h.values.setIfInBounds index (f h.values[index]) } :=
    ⟨by simpa using hinv.sizes, hinv.place_iff⟩
  have hindex' : index < (h.values.setIfInBounds index (f h.values[index])).size := by
    simpa using hindex
  obtain ⟨h', hreorder, hre⟩ := hinv₁.reorder?_rearranged hindex'
  refine ⟨h', by simp [modify?, hindex, hreorder], hre.inverse, ?_, fun i => ?_, fun i => ?_⟩
  · rw [count, hre.values, Array.size_setIfInBounds]
    rfl
  · rw [value?, hre.values, value?]
    by_cases hi : i = index
    · rw [if_pos hi, hi, Array.getElem?_setIfInBounds_self_of_lt hindex, Array.getElem?_eq_getElem hindex]
      rfl
    · rw [if_neg hi, Array.getElem?_setIfInBounds_ne (Ne.symm hi)]
  · rw [hre.active]
    rfl

theorem Inverse.activate?_active (hinv : h.Inverse) {index : Nat} (hindex : index < h.values.size) :
    ∃ added h', h.activate? index = some (added, h') ∧ h'.Inverse ∧ h'.values = h.values ∧
      ∀ i, h'.isActive i = (decide (i = index) || h.isActive i) := by
  have hplaces : index < h.places.size := by rw [hinv.sizes]; exact hindex
  unfold activate?
  rcases hp : h.places[index]? with _ | _ | place
  · rw [Array.getElem?_eq_getElem hplaces] at hp
    exact absurd hp (by simp)
  · have hinv₁ : Inverse { h with
        heap := h.heap.push index
        places := h.places.setIfInBounds index (some h.heap.size) } := by
      refine ⟨by simpa using hinv.sizes, ?_⟩
      intro i place
      have hiff := hinv.place_iff i place
      have hlt : ∀ j, h.heap[place]? = some j → place < h.heap.size :=
        fun j hj => (Array.getElem?_eq_some_iff.1 hj).1
      simp only [Array.getElem?_setIfInBounds, Array.getElem?_push]
      grind only
    have hplace : h.heap.size < (h.heap.push index).size := by simp
    obtain ⟨h', hup, hre⟩ := hinv₁.siftUp?_rearranged hplace
    refine ⟨true, h', by simp [hup], hre.inverse, hre.values, ?_⟩
    intro i
    rw [hre.active, Bool.eq_iff_iff, Bool.or_eq_true, isActive_iff, isActive_iff]
    simp only [Array.getElem?_setIfInBounds]
    grind only
  · refine ⟨false, h, by simp, hinv, rfl, ?_⟩
    intro i
    by_cases hi : i = index
    · subst hi
      simp [isActive_iff.2 ⟨place, hp⟩]
    · simp [hi]

def dropLast (h : IndexHeap V) (index : Nat) : IndexHeap V :=
  { h with heap := h.heap.pop, places := h.places.setIfInBounds index none }

omit [Priority V] in
theorem Inverse.dropLast (hinv : h.Inverse) {index : Nat}
    (hlast : h.heap[h.heap.size - 1]? = some index) : (h.dropLast index).Inverse := by
  refine ⟨by simpa [IndexHeap.dropLast] using hinv.sizes, ?_⟩
  intro i p
  have hiff := hinv.place_iff i p
  have hunique : ∀ c d : Nat, h.heap[c]? = some i → h.heap[d]? = some i → c = d :=
    fun c d => hinv.place_unique
  have hbound : ∀ c, h.heap[c]? = some i → c < h.heap.size :=
    fun c hc => (Array.getElem?_eq_some_iff.1 hc).1
  simp only [IndexHeap.dropLast, Array.getElem?_setIfInBounds, Array.getElem?_pop]
  grind only

omit [Priority V] in
theorem isActive_dropLast (index i : Nat) :
    (h.dropLast index).isActive i = (!decide (i = index) && h.isActive i) := by
  rw [Bool.eq_iff_iff, Bool.and_eq_true, isActive_iff, isActive_iff]
  simp only [dropLast, Array.getElem?_setIfInBounds]
  grind only

omit [Priority V] in
theorem size_dropLast (index : Nat) : (h.dropLast index).heap.size = h.heap.size - 1 := by
  simp [dropLast]

theorem remove?_eq {index place : Nat} (hplace : h.places[index]? = some (some place))
    (hpos : 0 < h.heap.size) (hswap : h.swap? place (h.heap.size - 1) = some h') :
    h.remove? index = if place < (h'.dropLast index).heap.size then
        ((h'.dropLast index).siftDown? place).bind fun sifted =>
          (sifted.siftUp? place).bind fun result => some (true, result)
      else some (true, h'.dropLast index) := by
  unfold remove?
  rw [hplace]
  change Option.bind (guard (0 < h.heap.size)) _ = _
  rw [guard_eq_some hpos, Option.bind_some]
  change (h.swap? place (h.heap.size - 1)).bind _ = _
  rw [hswap]
  rfl

omit [Priority V] in
theorem Inverse.swap?_last (hinv : h.Inverse) {index place : Nat}
    (hplace : h.heap[place]? = some index) : ∃ h', h.swap? place (h.heap.size - 1) = some h' ∧
      h.Rearranged h' ∧ h'.heap[h'.heap.size - 1]? = some index := by
  have hlt := (Array.getElem?_eq_some_iff.1 hplace).1
  have hlastlt : h.heap.size - 1 < h.heap.size := by omega
  obtain ⟨h₁, hswap, hre⟩ := hinv.swap?_rearranged hlt hlastlt
  refine ⟨h₁, hswap, hre, ?_⟩
  rw [hre.size]
  rw [hinv.swap?_eq hplace (Array.getElem?_eq_getElem hlastlt)] at hswap
  cases hswap
  simp only [Array.getElem?_setIfInBounds, Array.size_setIfInBounds]
  grind only

theorem Inverse.remove?_active (hinv : h.Inverse) {index : Nat} (hindex : index < h.values.size) :
    ∃ removed h', h.remove? index = some (removed, h') ∧ h'.Inverse ∧ h'.values = h.values ∧
      (h.isActive index = true → h'.heap.size < h.heap.size) ∧
      ∀ i, h'.isActive i = (!decide (i = index) && h.isActive i) := by
  have hplaces : index < h.places.size := by rw [hinv.sizes]; exact hindex
  rcases hp : h.places[index]? with _ | _ | place
  · rw [Array.getElem?_eq_getElem hplaces] at hp
    exact absurd hp (by simp)
  · refine ⟨false, h, by rw [remove?, hp]; rfl, hinv, rfl, by simp [isActive, hp], ?_⟩
    intro i
    by_cases hi : i = index
    · subst hi
      simp [isActive, hp]
    · simp [hi]
  · have hheap := (hinv.place_iff index place).1 hp
    have hlt := (Array.getElem?_eq_some_iff.1 hheap).1
    have hpos : 0 < h.heap.size := Nat.zero_lt_of_lt hlt
    obtain ⟨h₁, hswap, hre₁, hlast⟩ := hinv.swap?_last hheap
    have hinv₂ := hre₁.inverse.dropLast hlast
    have hsize₂ : (h₁.dropLast index).heap.size = h.heap.size - 1 := by
      rw [size_dropLast, hre₁.size]
    have hactive₂ : ∀ i, (h₁.dropLast index).isActive i =
        (!decide (i = index) && h.isActive i) := fun i => by
      rw [isActive_dropLast, hre₁.active]
    rw [remove?_eq hp hpos hswap]
    -- the last index of the heap took the place, unless it is the one removed
    by_cases hbelow : place < (h₁.dropLast index).heap.size
    · obtain ⟨h₃, hdown, hre₃⟩ := hinv₂.siftDown?_rearranged hbelow
      obtain ⟨h₄, hup, hre₄⟩ := hre₃.inverse.siftUp?_rearranged
        (show place < h₃.heap.size by rw [hre₃.size]; exact hbelow)
      refine ⟨true, h₄, ?_, hre₄.inverse, ?_, fun _ => ?_, fun i => ?_⟩
      · rw [if_pos hbelow, hdown, Option.bind_some, hup, Option.bind_some]
      · rw [hre₄.values, hre₃.values]
        exact hre₁.values
      · rw [hre₄.size, hre₃.size, hsize₂]
        omega
      · rw [hre₄.active, hre₃.active, hactive₂]
    · exact ⟨true, h₁.dropLast index, if_neg hbelow, hinv₂, hre₁.values, fun _ => by omega,
        hactive₂⟩

/-- The heap with values for all indices up to one that is given a value. -/
def grown (h : IndexHeap V) (index : Nat) (value : V) : IndexHeap V :=
  { h with
    values := (h.values ++ Array.replicate (index + 1 - h.values.size)
      Priority.base).setIfInBounds index value
    places := h.places ++ Array.replicate (index + 1 - h.values.size) none }

theorem Inverse.grown (hinv : h.Inverse) (index : Nat) (value : V) : (h.grown index value).Inverse := by
  refine ⟨by simp [IndexHeap.grown, hinv.sizes], fun i place => ?_⟩
  have hiff := hinv.place_iff i place
  have hbound : ∀ q, h.places[i]? = some q → i < h.places.size :=
    fun q hq => (Array.getElem?_eq_some_iff.1 hq).1
  simp only [IndexHeap.grown, Array.getElem?_append, Array.getElem?_replicate]
  grind only

theorem isActive_grown (index : Nat) (value : V) (i : Nat) :
    (h.grown index value).isActive i = h.isActive i := by
  have hbound : ∀ q, h.places[i]? = some q → i < h.places.size :=
    fun q hq => (Array.getElem?_eq_some_iff.1 hq).1
  rw [Bool.eq_iff_iff, isActive_iff, isActive_iff]
  simp only [grown, Array.getElem?_append, Array.getElem?_replicate]
  grind only

theorem count_grown (index : Nat) (value : V) :
    (h.grown index value).count = max h.count (index + 1) := by
  simp only [count, grown, Array.size_setIfInBounds, Array.size_append, Array.size_replicate]
  omega

theorem value?_grown (index : Nat) (value : V) (i : Nat) :
    (h.grown index value).value? i =
      if i = index then some value
      else if i < index then some ((h.value? i).getD Priority.base)
      else h.value? i := by
  simp only [value?, grown, Array.getElem?_setIfInBounds, Array.getElem?_append,
    Array.getElem?_replicate, Array.size_append, Array.size_replicate]
  grind

theorem Inverse.add?_active (hinv : h.Inverse) (index : Nat) (value : V) :
    ∃ fresh h', h.add? index value = some (fresh, h') ∧ h'.Inverse ∧
      h'.values = (h.grown index value).values ∧ ∀ i, h'.isActive i = h.isActive i := by
  rcases Nat.lt_or_ge index h.values.size with hold | hnew
  · -- an index that has a value may be on the heap, where it is moved
    have hindex : index < (h.grown index value).values.size := by
      simp only [IndexHeap.grown, Array.size_setIfInBounds, Array.size_append]
      omega
    obtain ⟨h', hreorder, hre⟩ := (hinv.grown index value).reorder?_rearranged hindex
    refine ⟨false, h', ?_, hre.inverse, hre.values, fun i => ?_⟩
    · show (if h.values.size ≤ index then some (true, h.grown index value)
        else ((h.grown index value).reorder? index).map fun h => (false, h)) = _
      rw [if_neg (Nat.not_le_of_lt hold), hreorder]
      rfl
    · rw [hre.active, isActive_grown]
  · exact ⟨true, _, if_pos hnew, hinv.grown index value, rfl, isActive_grown index value⟩

end Satisfiability.Search.IndexHeap
