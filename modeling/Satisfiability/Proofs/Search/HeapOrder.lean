import Mathlib.Logic.Equiv.Basic
import Satisfiability.Proofs.Search.IndexHeap

/-!
# The order of a heap

In a heap no value is greater than the one at the place above it (`Ordered`). An operation that
moves indices about leaves one place out of order at a time, and the places next to it are in order
across it (`OrderedBut`). Moving up or down from there either changes nothing, as the place is in
order on that side, or brings the whole heap in order (`siftUp?_ordered`, `siftDown?_ordered`), and
so every operation keeps the order.

The order is any one that the comparison of values follows (`Priority.Follows`). Values that are
equal in it may still be told apart by the comparison, so that one proof serves an order with ties
and an order that breaks them.
-/

namespace Satisfiability.Search

variable {V : Type} {le : V → V → Prop}

/-- Of two values one that belongs above the other is not below it, and of the others the first is
not above the second. -/
structure Priority.Follows [Priority V] (le : V → V → Prop) : Prop where
  trans : ∀ x y z, le x y → le y z → le x z
  of_above : ∀ x y, Priority.above x y = true → le y x
  of_not_above : ∀ x y, Priority.above x y = false → le x y

theorem Priority.Follows.refl [Priority V] (hle : Priority.Follows le) (x : V) : le x x := by
  cases habove : Priority.above x x with
  | true => exact hle.of_above x x habove
  | false => exact hle.of_not_above x x habove

namespace IndexHeap

/-! ## Places and their children -/

def IsChild (child place : Nat) : Prop := child = 2 * place + 1 ∨ child = 2 * place + 2

theorem IsChild.lt {child place : Nat} (h : IsChild child place) : place < child := by
  unfold IsChild at h
  omega

theorem IsChild.unique {child place other : Nat} (h : IsChild child place) (h' : IsChild child other) :
    place = other := by
  unfold IsChild at h h'
  omega

theorem isChild_half {place : Nat} (h : place ≠ 0) : IsChild place ((place - 1) / 2) := by
  unfold IsChild
  omega

section keys

variable {keys : Nat → Option V} {start hole place child : Nat} {x y : V}

def AtMost (le : V → V → Prop) (keys : Nat → Option V) (a b : Nat) : Prop :=
  ∀ x y, keys a = some x → keys b = some y → le x y

/-- From a place on, no child has a greater value. -/
def Ordered (le : V → V → Prop) (start : Nat) (keys : Nat → Option V) : Prop :=
  ∀ place child, start ≤ place → IsChild child place → AtMost le keys child place

/-- From a place on, no child has a greater value, if one place is skipped. -/
structure OrderedBut (le : V → V → Prop) (start hole : Nat) (keys : Nat → Option V) : Prop where
  off : ∀ place child, start ≤ place → IsChild child place → place ≠ hole → child ≠ hole →
    AtMost le keys child place
  across : ∀ place child, start ≤ place → IsChild hole place → IsChild child hole →
    AtMost le keys child place

theorem atMost_of_eq (hx : keys child = some x) (hy : keys place = some y) (h : le x y) :
    AtMost le keys child place := by
  intro u v hu hv
  rw [hx] at hu
  rw [hy] at hv
  cases hu
  cases hv
  exact h

theorem OrderedBut.fill (h : OrderedBut le start hole keys)
    (habove : ∀ place, start ≤ place → IsChild hole place → AtMost le keys hole place)
    (hbelow : ∀ child, IsChild child hole → AtMost le keys child hole) : Ordered le start keys := by
  intro place child hstart hchild
  by_cases hplace : place = hole
  · subst hplace
    exact hbelow child hchild
  · by_cases hhole : child = hole
    · subst hhole
      exact habove place hstart hchild
    · exact h.off place child hstart hchild hplace hhole

variable [Priority V] (hle : Priority.Follows le)

include hle

theorem AtMost.trans {a b c : Nat} (h : AtMost le keys a b) (hy : keys b = some y)
    (h' : AtMost le keys b c) : AtMost le keys a c := fun x z hx hz =>
  hle.trans x y z (h x y hx hy) (h' y z hy hz)

theorem Ordered.but (h : Ordered le start keys) (hx : keys hole = some x) :
    OrderedBut le start hole keys := by
  refine ⟨fun place child hstart hchild _ _ => h place child hstart hchild,
    fun place child hstart hplace hchild => ?_⟩
  have hhole : start ≤ hole := Nat.le_trans hstart (Nat.le_of_lt hplace.lt)
  exact (h hole child hhole hchild).trans hle hx (h place hole hstart hplace)

/-- A value that is not below the one above it changes places with it, and then only the value in
its new place may be out of order, and only with the one above. -/
theorem OrderedBut.raise (h : OrderedBut le 0 hole keys) (hhole : IsChild hole place)
    (hx : keys hole = some x) (hy : keys place = some y) (hyx : le y x) :
    OrderedBut le 0 place (keys ∘ Equiv.swap hole place) ∧
      ∀ child, IsChild child place → AtMost le (keys ∘ Equiv.swap hole place) child place := by
  have hne : hole ≠ place := Nat.ne_of_gt hhole.lt
  have hat : (keys ∘ Equiv.swap hole place) hole = some y := by simp [hy]
  have habove : (keys ∘ Equiv.swap hole place) place = some x := by simp [hx]
  have hother : ∀ other, other ≠ hole → other ≠ place →
      (keys ∘ Equiv.swap hole place) other = keys other := fun other h₁ h₂ => by
    simp [Equiv.swap_apply_of_ne_of_ne h₁ h₂]
  -- the children of the new place, the old one among them, were at most the value that came down
  have hchildren : ∀ child, IsChild child place → ∀ u,
      (keys ∘ Equiv.swap hole place) child = some u → le u y := by
    intro child hchild u hu
    by_cases heq : child = hole
    · rw [heq, hat] at hu
      cases hu
      exact hle.refl y
    · rw [hother child heq (Nat.ne_of_gt hchild.lt)] at hu
      exact h.off place child (Nat.zero_le _) hchild hne.symm heq u y hu hy
  refine ⟨⟨fun parent child _ hchild hparent hnot => ?_, fun parent child _ hplace hchild => ?_⟩,
    fun child hchild u v hu hv => ?_⟩
  · have hchildhole : child ≠ hole := by
      rintro rfl
      exact hparent (hchild.unique hhole)
    intro u v hu hv
    rw [hother child hchildhole hnot] at hu
    by_cases heq : parent = hole
    · -- below the old place, order holds across it
      subst heq
      rw [hat] at hv
      cases hv
      exact h.across place child (Nat.zero_le _) hhole hchild u y hu hy
    · rw [hother parent heq hparent] at hv
      exact h.off parent child (Nat.zero_le _) hchild heq hchildhole u v hu hv
  · intro u v hu hv
    have hlt : parent < hole := Nat.lt_trans hplace.lt hhole.lt
    rw [hother parent (Nat.ne_of_lt hlt) (Nat.ne_of_lt hplace.lt)] at hv
    have hup : le y v :=
      h.off parent place (Nat.zero_le _) hplace (Nat.ne_of_lt hlt) hne.symm y v hy hv
    exact hle.trans u y v (hchildren child hchild u hu) hup
  · rw [habove] at hv
    cases hv
    exact hle.trans u y _ (hchildren child hchild u hu) hyx

omit [Priority V] hle in
/-- A value that is not above the greatest child changes places with it, and then only the value in
its new place may be out of order, and only with those below. -/
theorem OrderedBut.lower (h : OrderedBut le start hole keys) (hstart : start ≤ hole)
    (hchild : IsChild child hole) (hx : keys hole = some x) (hy : keys child = some y) (hxy : le x y)
    (hgreatest : ∀ other, IsChild other hole → AtMost le keys other child) :
    OrderedBut le start child (keys ∘ Equiv.swap hole child) ∧
      AtMost le (keys ∘ Equiv.swap hole child) child hole := by
  have hat : (keys ∘ Equiv.swap hole child) hole = some y := by simp [hy]
  have hbelow : (keys ∘ Equiv.swap hole child) child = some x := by simp [hx]
  have hother : ∀ other, other ≠ hole → other ≠ child →
      (keys ∘ Equiv.swap hole child) other = keys other := fun other h₁ h₂ => by
    simp [Equiv.swap_apply_of_ne_of_ne h₁ h₂]
  refine ⟨⟨fun place other hplace hothers hnot hne => ?_, fun place other _ hplace hothers => ?_⟩,
    atMost_of_eq hbelow hat hxy⟩
  · intro u v hu hv
    by_cases heq : place = hole
    · subst heq
      rw [hat] at hv
      cases hv
      rw [hother other (Nat.ne_of_gt hothers.lt) hne] at hu
      exact hgreatest other hothers u y hu hy
    · rw [hother place heq hnot] at hv
      by_cases heq' : other = hole
      · -- above the old place, order holds across it
        subst heq'
        rw [hat] at hu
        cases hu
        exact h.across place child hplace hothers hchild y v hy hv
      · rw [hother other heq' hne] at hu
        exact h.off place other hplace hothers heq heq' u v hu hv
  · obtain rfl := hplace.unique hchild
    intro u v hu hv
    have hlt := hchild.lt
    have hlt' := hothers.lt
    rw [hat] at hv
    cases hv
    rw [hother other (by omega) (by omega)] at hu
    exact h.off child other (by omega) hothers (by omega) (by omega) u y hu hy

end keys

/-! ## Moving up and down -/

variable {h h' : IndexHeap V}

def key? (h : IndexHeap V) (place : Nat) : Option V :=
  (h.heap[place]?).bind fun index => h.values[index]?

theorem lt_of_key? {place : Nat} {x : V} (hx : h.key? place = some x) : place < h.heap.size := by
  obtain ⟨index, hindex, -⟩ := Option.bind_eq_some_iff.1 hx
  exact (Array.getElem?_eq_some_iff.1 hindex).1

theorem Inverse.exists_key (hinv : h.Inverse) {place : Nat} (hplace : place < h.heap.size) :
    ∃ x, h.key? place = some x := by
  have hindex := Array.getElem?_eq_getElem hplace
  have hvalue := Array.getElem?_eq_getElem (hinv.lt_of_heap hindex)
  exact ⟨_, by rw [key?, hindex, Option.bind_some, hvalue]⟩

theorem key?_swap? {a b : Nat} (hrun : h.swap? a b = some h') :
    h'.key? = h.key? ∘ Equiv.swap a b ∧ h'.heap.size = h.heap.size := by
  obtain ⟨i, hi, hrun⟩ := Option.bind_eq_some_iff.1 hrun
  obtain ⟨j, hj, hrun⟩ := Option.bind_eq_some_iff.1 hrun
  obtain ⟨_, _, hrun⟩ := Option.bind_eq_some_iff.1 hrun
  cases hrun
  refine ⟨funext fun place => ?_, by simp⟩
  have hplace : ((h.heap.setIfInBounds a j).setIfInBounds b i)[place]? =
      h.heap[Equiv.swap a b place]? := by
    have ha := (Array.getElem?_eq_some_iff.1 hi).1
    have hb := (Array.getElem?_eq_some_iff.1 hj).1
    simp only [Equiv.swap_apply_def, Array.getElem?_setIfInBounds, Array.size_setIfInBounds]
    grind only
  rw [Function.comp_apply, key?, hplace]
  rfl

variable [Priority V]

theorem above?_eq_some {a b : Nat} {answer : Bool} (hrun : h.above? a b = some answer) :
    ∃ x y, h.key? a = some x ∧ h.key? b = some y ∧ Priority.above x y = answer := by
  obtain ⟨i, hi, hrun⟩ := Option.bind_eq_some_iff.1 hrun
  obtain ⟨j, hj, hrun⟩ := Option.bind_eq_some_iff.1 hrun
  obtain ⟨x, hx, hrun⟩ := Option.bind_eq_some_iff.1 hrun
  obtain ⟨y, hy, hrun⟩ := Option.bind_eq_some_iff.1 hrun
  exact ⟨x, y, by rw [key?, hi, Option.bind_some, hx], by rw [key?, hj, Option.bind_some, hy],
    Option.some.inj hrun⟩

variable (hle : Priority.Follows le)

include hle

/-- Moving up changes nothing where the place is in order with the one above, and else brings all in
order. -/
theorem siftUp?_ordered {place : Nat} (hbut : OrderedBut le 0 place h.key?)
    (hrun : h.siftUp? place = some h') :
    (h' = h ∧ ∀ parent, IsChild place parent → AtMost le h.key? place parent) ∨
      Ordered le 0 h'.key? := by
  induction place using Nat.strongRecOn generalizing h with
  | ind place ih =>
    rw [siftUp?] at hrun
    by_cases hzero : place = 0
    · rw [if_pos hzero] at hrun
      cases hrun
      refine Or.inl ⟨rfl, fun parent hparent => ?_⟩
      exact absurd hparent.lt (hzero ▸ Nat.not_lt_zero parent)
    · rw [if_neg hzero] at hrun
      have hchild := isChild_half hzero
      obtain ⟨answer, habove, hrun⟩ := Option.bind_eq_some_iff.1 hrun
      obtain ⟨x, y, hx, hy, hanswer⟩ := above?_eq_some habove
      cases answer with
      | false =>
        cases hrun
        refine Or.inl ⟨rfl, fun parent hparent => ?_⟩
        rw [hparent.unique hchild]
        exact atMost_of_eq hx hy (hle.of_not_above x y hanswer)
      | true =>
        obtain ⟨h₁, hswap, hrun⟩ := Option.bind_eq_some_iff.1 hrun
        obtain ⟨hkeys, -⟩ := key?_swap? hswap
        obtain ⟨hbut₁, hbelow₁⟩ := hbut.raise hle hchild hx hy (hle.of_above x y hanswer)
        rw [← hkeys] at hbut₁ hbelow₁
        right
        -- the exchange moves the hole to the parent, where the induction hypothesis applies
        rcases ih _ hchild.lt hbut₁ hrun with ⟨rfl, habove₁⟩ | hordered
        · exact hbut₁.fill (fun parent _ => habove₁ parent) hbelow₁
        · exact hordered

theorem higher?_spec {a b c : Nat} (hrun : h.higher? a b = some c) :
    (c = a ∧ AtMost le h.key? b a) ∨
      (c = b ∧ ∃ x y, h.key? a = some x ∧ h.key? b = some y ∧ le x y) := by
  unfold higher? at hrun
  split at hrun
  · obtain ⟨answer, habove, hrun⟩ := Option.bind_eq_some_iff.1 hrun
    obtain ⟨y, x, hy, hx, hanswer⟩ := above?_eq_some habove
    cases answer with
    | true =>
      cases hrun
      exact Or.inr ⟨rfl, x, y, hx, hy, hle.of_above y x hanswer⟩
    | false =>
      cases hrun
      exact Or.inl ⟨rfl, atMost_of_eq hy hx (hle.of_not_above y x hanswer)⟩
  · rename_i hout
    cases hrun
    exact Or.inl ⟨rfl, fun y _ hy _ => absurd (lt_of_key? hy) hout⟩

theorem higher?_children {place a b : Nat} (ha : h.higher? place (2 * place + 1) = some a)
    (hb : h.higher? a (2 * place + 2) = some b) :
    (b = place ∧ ∀ child, IsChild child place → AtMost le h.key? child place) ∨
      (IsChild b place ∧ (∃ x y, h.key? place = some x ∧ h.key? b = some y ∧ le x y) ∧
        ∀ child, IsChild child place → AtMost le h.key? child b) := by
  -- by cases on which of the two comparisons a child wins
  rcases higher?_spec hle ha with ⟨rfl, hleft⟩ | ⟨rfl, x, y, hx, hy, hxy⟩
  · rcases higher?_spec hle hb with ⟨rfl, hright⟩ | ⟨rfl, x, z, hx, hz, hxz⟩
    · left
      refine ⟨rfl, ?_⟩
      rintro child (rfl | rfl)
      · exact hleft
      · exact hright
    · right
      refine ⟨Or.inr rfl, ⟨x, z, hx, hz, hxz⟩, ?_⟩
      rintro child (rfl | rfl)
      · exact hleft.trans hle hx (atMost_of_eq hx hz hxz)
      · exact atMost_of_eq hz hz (hle.refl z)
  · right
    rcases higher?_spec hle hb with ⟨rfl, hright⟩ | ⟨rfl, y', z, hy', hz, hyz⟩
    · refine ⟨Or.inl rfl, ⟨x, y, hx, hy, hxy⟩, ?_⟩
      rintro child (rfl | rfl)
      · exact atMost_of_eq hy hy (hle.refl y)
      · exact hright
    · rw [hy] at hy'
      cases hy'
      refine ⟨Or.inr rfl, ⟨x, z, hx, hz, hle.trans x y z hxy hyz⟩, ?_⟩
      rintro child (rfl | rfl)
      · exact atMost_of_eq hy hz hyz
      · exact atMost_of_eq hz hz (hle.refl z)

theorem siftDownWithin?_ordered {start place steps : Nat} (hbut : OrderedBut le start place h.key?)
    (hstart : start ≤ place) (hsteps : h.heap.size ≤ place + steps)
    (hrun : h.siftDownWithin? place steps = some h') :
    (h' = h ∧ ∀ child, IsChild child place → AtMost le h.key? child place) ∨
      Ordered le start h'.key? := by
  induction steps generalizing h place with
  | zero =>
    -- a place behind the last one has no children
    cases hrun
    refine Or.inl ⟨rfl, fun child hchild x _ hx _ => ?_⟩
    have hlt := lt_of_key? hx
    have hgt := hchild.lt
    omega
  | succ steps ih =>
    obtain ⟨a, ha, hrun⟩ := Option.bind_eq_some_iff.1 hrun
    obtain ⟨b, hb, hrun⟩ := Option.bind_eq_some_iff.1 hrun
    rcases higher?_children hle ha hb with ⟨rfl, hbelow⟩ | ⟨hchild, ⟨x, y, hx, hy, hxy⟩, hgreatest⟩
    · rw [if_pos rfl] at hrun
      cases hrun
      exact Or.inl ⟨rfl, hbelow⟩
    · have hlt := hchild.lt
      rw [if_neg (Nat.ne_of_gt hlt)] at hrun
      obtain ⟨h₁, hswap, hrun⟩ := Option.bind_eq_some_iff.1 hrun
      obtain ⟨hkeys, hsize⟩ := key?_swap? hswap
      obtain ⟨hbut₁, habove₁⟩ := hbut.lower hstart hchild hx hy hxy hgreatest
      rw [← hkeys] at hbut₁ habove₁
      right
      rcases ih hbut₁ (by omega) (by omega) hrun with ⟨rfl, hbelow₁⟩ | hordered
      · refine hbut₁.fill (fun parent _ hparent => ?_) hbelow₁
        rw [hparent.unique hchild]
        exact habove₁
      · exact hordered

/-- Moving down changes nothing where the place is in order with those below, and else brings all in
order. -/
theorem siftDown?_ordered {start place : Nat} (hbut : OrderedBut le start place h.key?)
    (hstart : start ≤ place) (hrun : h.siftDown? place = some h') :
    (h' = h ∧ ∀ child, IsChild child place → AtMost le h.key? child place) ∨
      Ordered le start h'.key? :=
  siftDownWithin?_ordered hle hbut hstart (Nat.le_add_left _ _) hrun

/-! ## Operations -/

omit [Priority V] hle in
theorem Ordered.of_agree {start : Nat} {keys keys' : Nat → Option V} (h : Ordered le start keys)
    (hagree : ∀ place x, keys' place = some x → keys place = some x) : Ordered le start keys' :=
  fun place child hstart hchild x y hx hy =>
    h place child hstart hchild x y (hagree child x hx) (hagree place y hy)

omit [Priority V] hle in
theorem OrderedBut.of_agree {start hole : Nat} {keys keys' : Nat → Option V}
    (h : OrderedBut le start hole keys)
    (hagree : ∀ place x, place ≠ hole → keys' place = some x → keys place = some x) :
    OrderedBut le start hole keys' := by
  constructor
  · intro place child hstart hchild hplace hne x y hx hy
    exact h.off place child hstart hchild hplace hne x y (hagree child x hne hx)
      (hagree place y hplace hy)
  · intro place child hstart hplace hchild x y hx hy
    exact h.across place child hstart hplace hchild x y (hagree child x (Nat.ne_of_gt hchild.lt) hx)
      (hagree place y (Nat.ne_of_lt hplace.lt) hy)

theorem Inverse.orderedBut (hinv : h.Inverse) (hordered : Ordered le 0 h.key?) (hole : Nat) :
    OrderedBut le 0 hole h.key? := by
  rcases Nat.lt_or_ge hole h.heap.size with hlt | hge
  · obtain ⟨x, hx⟩ := hinv.exists_key hlt
    exact hordered.but hle hx
  · refine ⟨fun place child hstart hchild _ _ => hordered place child hstart hchild, ?_⟩
    intro place child _ _ hchild x _ hx _
    have hgt := hchild.lt
    have hlt := lt_of_key? hx
    omega

theorem Inverse.siftUp?_keeps (hinv : h.Inverse) (hordered : Ordered le 0 h.key?) {place : Nat}
    (hrun : h.siftUp? place = some h') : Ordered le 0 h'.key? := by
  rcases siftUp?_ordered hle (hinv.orderedBut hle hordered place) hrun with ⟨rfl, -⟩ | hordered'
  · exact hordered
  · exact hordered'

theorem Inverse.siftDown?_keeps (hinv : h.Inverse) (hordered : Ordered le 0 h.key?) {place : Nat}
    (hrun : h.siftDown? place = some h') : Ordered le 0 h'.key? := by
  have hbut := hinv.orderedBut hle hordered place
  rcases siftDown?_ordered hle hbut (Nat.zero_le _) hrun with ⟨rfl, -⟩ | hordered'
  · exact hordered
  · exact hordered'

theorem Inverse.reorder?_ordered (hinv : h.Inverse) {index : Nat}
    (hbut : ∀ place : Nat, h.heap[place]? = some index → OrderedBut le 0 place h.key?)
    (hout : (∀ place : Nat, h.heap[place]? ≠ some index) → Ordered le 0 h.key?)
    (hrun : h.reorder? index = some h') : Ordered le 0 h'.key? := by
  obtain ⟨stored, hstored, hrun⟩ := Option.bind_eq_some_iff.1 hrun
  cases stored with
  | none =>
    cases hrun
    refine hout fun place hplace => ?_
    have hinverse := (hinv.place_iff index place).2 hplace
    rw [hstored] at hinverse
    cases hinverse
  | some place =>
    obtain ⟨h₁, hup, hrun⟩ := Option.bind_eq_some_iff.1 hrun
    have hplace := (hinv.place_iff index place).1 hstored
    obtain ⟨h₁', hup', hre⟩ := hinv.siftUp?_rearranged (Array.getElem?_eq_some_iff.1 hplace).1
    rw [hup] at hup'
    cases hup'
    obtain ⟨stored₁, hstored₁, hrun⟩ := Option.bind_eq_some_iff.1 hrun
    rcases siftUp?_ordered hle (hbut place hplace) hup with ⟨rfl, habove⟩ | hordered
    · -- the place is in order with the one above it, and the index still stands there
      rw [hstored] at hstored₁
      cases hstored₁
      rcases siftDown?_ordered hle (hbut place hplace) (Nat.zero_le _) hrun with ⟨rfl, hbelow⟩ | hordered
      · exact (hbut place hplace).fill (fun parent _ => habove parent) hbelow
      · exact hordered
    · cases stored₁ with
      | none =>
        cases hrun
        exact hordered
      | some place₁ => exact hre.inverse.siftDown?_keeps hle hordered hrun

theorem Inverse.revalue_ordered (hinv : h.Inverse) (hordered : Ordered le 0 h.key?) {index : Nat}
    {value : V}
    (hrun : { h with values := h.values.setIfInBounds index value }.reorder? index = some h') :
    Ordered le 0 h'.key? := by
  have hinv₁ : Inverse { h with values := h.values.setIfInBounds index value } :=
    ⟨by simpa using hinv.sizes, hinv.place_iff⟩
  have hagree : ∀ place x, h.heap[place]? ≠ some index →
      key? { h with values := h.values.setIfInBounds index value } place = some x →
        h.key? place = some x := by
    intro place x hplace hx
    obtain ⟨other, hother, hx⟩ := Option.bind_eq_some_iff.1 hx
    have hne : index ≠ other := fun heq => hplace (heq ▸ hother)
    rw [Array.getElem?_setIfInBounds_ne hne] at hx
    rw [key?, show h.heap[place]? = some other from hother, Option.bind_some]
    exact hx
  apply hinv₁.reorder?_ordered hle _ _ hrun
  · intro place hplace
    apply (hinv.orderedBut hle hordered place).of_agree
    exact fun other x hne => hagree other x fun hother => hne (hinv.place_unique hother hplace)
  · exact fun hout => hordered.of_agree fun place x => hagree place x (hout place)

theorem Inverse.modify?_ordered (hinv : h.Inverse) (hordered : Ordered le 0 h.key?) {index : Nat}
    {f : V → V} (hrun : h.modify? index f = some h') : Ordered le 0 h'.key? := by
  obtain ⟨value, -, hrun⟩ := Option.bind_eq_some_iff.1 hrun
  exact hinv.revalue_ordered hle hordered hrun

theorem Inverse.add?_ordered (hinv : h.Inverse) (hordered : Ordered le 0 h.key?) {index : Nat}
    {value : V} {fresh : Bool} (hrun : h.add? index value = some (fresh, h')) :
    Ordered le 0 h'.key? := by
  unfold add? at hrun
  dsimp only at hrun
  split at hrun
  · -- no index on the heap is new
    rename_i hnew
    cases hrun
    apply hordered.of_agree
    intro place x hx
    obtain ⟨other, hother, hx⟩ := Option.bind_eq_some_iff.1 hx
    have hlt : other < h.values.size := hinv.lt_of_heap hother
    rw [Array.getElem?_setIfInBounds_ne (show index ≠ other by omega),
      Array.getElem?_append_left hlt] at hx
    rw [key?, show h.heap[place]? = some other from hother, Option.bind_some]
    exact hx
  · rename_i hold
    obtain ⟨h₁, hreorder, heq⟩ := Option.map_eq_some_iff.1 hrun
    cases heq
    have hmissing : index + 1 - h.values.size = 0 := by omega
    simp only [hmissing, Array.replicate_zero, Array.append_empty] at hreorder
    exact hinv.revalue_ordered hle hordered hreorder

theorem Inverse.activate?_ordered (hinv : h.Inverse) (hordered : Ordered le 0 h.key?) {index : Nat}
    {added : Bool} (hrun : h.activate? index = some (added, h')) : Ordered le 0 h'.key? := by
  obtain ⟨stored, -, hrun⟩ := Option.bind_eq_some_iff.1 hrun
  cases stored with
  | some place =>
    cases hrun
    exact hordered
  | none =>
    obtain ⟨h₁, hup, heq⟩ := Option.bind_eq_some_iff.1 hrun
    cases heq
    have hgrown : ∀ place x, place ≠ h.heap.size →
        key? { h with
          heap := h.heap.push index
          places := h.places.setIfInBounds index (some h.heap.size) } place = some x →
          h.key? place = some x := by
      intro place x hne hx
      rw [key?, Array.getElem?_push, if_neg hne] at hx
      exact hx
    -- the new place is the last one, and has no children
    have hbut := (hinv.orderedBut hle hordered h.heap.size).of_agree hgrown
    rcases siftUp?_ordered hle hbut hup with ⟨rfl, habove⟩ | hordered'
    · refine hbut.fill (fun parent _ => habove parent) fun child hchild x _ hx _ => ?_
      have hgt := hchild.lt
      have hlt := lt_of_key? hx
      simp only [Array.size_push] at hlt
      omega
    · exact hordered'

theorem Inverse.remove?_ordered (hinv : h.Inverse) (hordered : Ordered le 0 h.key?) {index : Nat}
    {removed : Bool} (hrun : h.remove? index = some (removed, h')) : Ordered le 0 h'.key? := by
  rcases hstored : h.places[index]? with _ | _ | place
  · rw [remove?, hstored] at hrun
    cases hrun
  · rw [remove?, hstored] at hrun
    cases hrun
    exact hordered
  · have hplace := (hinv.place_iff index place).1 hstored
    have hlt := (Array.getElem?_eq_some_iff.1 hplace).1
    obtain ⟨h₁, hswap, hre, hlast⟩ := hinv.swap?_last hplace
    obtain ⟨hkeys, hsize⟩ := key?_swap? hswap
    -- the last index has come to the place, and all else is where it was
    have hagree : ∀ other x, other ≠ place → (h₁.dropLast index).key? other = some x →
        h.key? other = some x := by
      intro other x hne hx
      have hother := lt_of_key? hx
      rw [size_dropLast, hsize] at hother
      have hkey : h₁.key? other = some x := by
        rw [key?, IndexHeap.dropLast, Array.getElem?_pop, hsize,
          if_pos hother] at hx
        exact hx
      rwa [hkeys, Function.comp_apply,
        Equiv.swap_apply_of_ne_of_ne hne (Nat.ne_of_lt hother)] at hkey
    have hbut := (hinv.orderedBut hle hordered place).of_agree hagree
    rw [remove?_eq hstored (Nat.zero_lt_of_lt hlt) hswap] at hrun
    split at hrun
    · rename_i hbelow
      obtain ⟨h₂, hdown, hrun⟩ := Option.bind_eq_some_iff.1 hrun
      obtain ⟨h₃, hup, heq⟩ := Option.bind_eq_some_iff.1 hrun
      cases heq
      rcases siftDown?_ordered hle hbut (Nat.zero_le _) hdown with ⟨rfl, hchildren⟩ | hordered₂
      · rcases siftUp?_ordered hle hbut hup with ⟨rfl, habove⟩ | hordered₃
        · exact hbut.fill (fun parent _ => habove parent) hchildren
        · exact hordered₃
      · obtain ⟨h₂', hdown', hre₂⟩ := (hre.inverse.dropLast hlast).siftDown?_rearranged hbelow
        rw [hdown] at hdown'
        cases hdown'
        exact hre₂.inverse.siftUp?_keeps hle hordered₂ hup
    · -- the index was the last one itself
      rename_i hout
      cases hrun
      refine hbut.fill (fun parent _ _ x _ hx _ => ?_) fun child hchild _ y _ hy => ?_
      · exact absurd (lt_of_key? hx) hout
      · exact absurd (lt_of_key? hy) hout

theorem Inverse.popMax?_ordered (hinv : h.Inverse) (hordered : Ordered le 0 h.key?)
    {popped : Option Nat} (hrun : h.popMax? = some (popped, h')) : Ordered le 0 h'.key? := by
  unfold popMax? at hrun
  split at hrun
  · cases hrun
    exact hordered
  · obtain ⟨⟨removed, h₁⟩, hremove, heq⟩ := Option.map_eq_some_iff.1 hrun
    cases heq
    exact hinv.remove?_ordered hle hordered hremove

theorem Inverse.siftDown?_each (hinv : h.Inverse) {count : Nat} (hcount : count ≤ h.heap.size)
    (hordered : Ordered le count h.key?) :
    ∃ h', (List.range count).reverse.foldlM siftDown? h = some h' ∧ h.Rearranged h' ∧
      Ordered le 0 h'.key? := by
  induction count generalizing h with
  | zero => exact ⟨h, rfl, .refl hinv, hordered⟩
  | succ count ih =>
    have hbut : OrderedBut le count count h.key? := by
      constructor
      · intro place child hstart hchild hne _
        exact hordered place child (by omega) hchild
      · intro place child hstart hplace _
        exact absurd hplace.lt (Nat.not_lt_of_le hstart)
    obtain ⟨h₁, hdown, hre₁⟩ := hinv.siftDown?_rearranged hcount
    have hordered₁ : Ordered le count h₁.key? := by
      rcases siftDown?_ordered hle hbut (Nat.le_refl _) hdown with ⟨rfl, hbelow⟩ | hordered₁
      · refine hbut.fill (fun place hstart hplace => ?_) hbelow
        exact absurd hplace.lt (Nat.not_lt_of_le hstart)
      · exact hordered₁
    obtain ⟨h₂, hrest, hre₂, hordered₂⟩ :=
      ih hre₁.inverse (by rw [hre₁.size]; omega) hordered₁
    refine ⟨h₂, ?_, hre₁.trans hre₂, hordered₂⟩
    rw [List.range_succ, List.reverse_append, List.reverse_singleton, List.singleton_append,
      List.foldlM_cons, hdown]
    exact hrest

theorem Inverse.heapify?_ordered (hinv : h.Inverse) :
    ∃ h', h.heapify? = some h' ∧ h.Rearranged h' ∧ Ordered le 0 h'.key? := by
  apply hinv.siftDown?_each hle (Nat.div_le_self _ _)
  -- the places of the second half have no children
  intro place child hstart hchild x _ hx _
  have hlt := lt_of_key? hx
  unfold IsChild at hchild
  omega

omit [Priority V] hle in
theorem Ordered.mapValues (hordered : Ordered le 0 h.key?) {f : V → V}
    (hmono : ∀ x y, le x y → le (f x) (f y)) : Ordered le 0 (h.mapValues f).key? := by
  have hkey : ∀ place x, (h.mapValues f).key? place = some x →
      ∃ y, h.key? place = some y ∧ f y = x := by
    intro place x hx
    obtain ⟨index, hindex, hx⟩ := Option.bind_eq_some_iff.1 hx
    rw [IndexHeap.mapValues, Array.getElem?_map] at hx
    obtain ⟨y, hy, hfy⟩ := Option.map_eq_some_iff.1 hx
    exact ⟨y, by rw [key?, show h.heap[place]? = some index from hindex, Option.bind_some, hy], hfy⟩
  intro place child hstart hchild x y hx hy
  obtain ⟨x', hx', rfl⟩ := hkey child x hx
  obtain ⟨y', hy', rfl⟩ := hkey place y hy
  exact hmono x' y' (hordered place child hstart hchild x' y' hx' hy')

theorem Inverse.atMost_top (hinv : h.Inverse) (hordered : Ordered le 0 h.key?) (place : Nat) :
    AtMost le h.key? place 0 := by
  induction place using Nat.strongRecOn with
  | ind place ih =>
    intro x top hx htop
    by_cases hzero : place = 0
    · rw [hzero, htop] at hx
      cases hx
      exact hle.refl _
    · have hchild := isChild_half hzero
      obtain ⟨y, hy⟩ := hinv.exists_key (Nat.lt_trans hchild.lt (lt_of_key? hx))
      have hxy := hordered _ place (Nat.zero_le _) hchild x y hx hy
      exact hle.trans x y top hxy (ih _ hchild.lt y top hy htop)

end IndexHeap

end Satisfiability.Search
