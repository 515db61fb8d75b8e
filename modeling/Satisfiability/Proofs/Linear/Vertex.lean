import Mathlib.Algebra.BigOperators.Group.Finset.Basic
import Mathlib.Algebra.BigOperators.Ring.Finset
import Mathlib.Algebra.Order.BigOperators.Group.Finset
import Mathlib.Algebra.Order.Field.Rat
import Mathlib.Data.Finset.Max
import Mathlib.Tactic.Linarith
import Mathlib.Tactic.Ring

/-!
# Vertices

The theory of pivots, apart from how they are computed. A vertex is a solution of the equations that
is zero outside a basis, together with the rates at which the value of a solution grows with the
entries outside the basis. Where no rate is above zero the vertex is optimal (`Vertex.value_le`),
and where one is, a direction in which nothing falls makes the value as great as one likes
(`Leads.value_add`).

With the smallest column entering and, of the columns that bound the step, the smallest one leaving,
no basis is met twice (`basis_ne_of_bland`). Suppose one is. Then the value has not grown in
between, so no step has moved the point. Let `t` be the greatest column that has entered or left.
The rates at the vertex where `t` enters and the direction in which `t` leaves show a column that is
smaller than `t` and would have left before it.
-/

namespace Satisfiability.Linear

open Finset

/-- The solutions of some equations over a number of columns, and a value that is to be made great.
-/
structure Pursuit where
  size : ℕ
  solutions : Set (ℕ → ℚ)
  costs : ℕ → ℚ

namespace Pursuit

def value (P : Pursuit) (x : ℕ → ℚ) : ℚ := ∑ j ∈ range P.size, P.costs j * x j

/-- The point that lies some steps in a direction from another one. -/
def along (x direction : ℕ → ℚ) (step : ℚ) (j : ℕ) : ℚ := x j + step * direction j

theorem value_along (P : Pursuit) (x direction : ℕ → ℚ) (step : ℚ) :
    P.value (along x direction step) =
      P.value x + step * ∑ j ∈ range P.size, P.costs j * direction j := by
  simp only [value, along, mul_add, sum_add_distrib, mul_sum]
  congr 1
  exact sum_congr rfl fun j _ => by ring

end Pursuit

open Pursuit

variable {P : Pursuit}

/-- A solution that is zero outside a basis, with the rates at which the value of a solution grows
with its entries. -/
structure Vertex (P : Pursuit) where
  basis : Finset ℕ
  point : ℕ → ℚ
  rate : ℕ → ℚ
  base : ℚ
  solves : point ∈ P.solutions
  point_eq_zero : ∀ j ∉ basis, point j = 0
  rate_eq_zero : ∀ j ∈ basis, rate j = 0
  value_eq : ∀ x ∈ P.solutions, P.value x = base + ∑ j ∈ range P.size, rate j * x j

/-- A direction from a vertex that keeps to the solutions and raises one entry outside the basis. -/
structure Leads (v : Vertex P) (entering : ℕ) (direction : ℕ → ℚ) : Prop where
  lt : entering < P.size
  fresh : entering ∉ v.basis
  keeps : ∀ x ∈ P.solutions, ∀ step, along x direction step ∈ P.solutions
  at_entering : direction entering = 1
  elsewhere : ∀ j ∉ v.basis, j ≠ entering → direction j = 0

namespace Vertex

variable {v w : Vertex P} {entering leaving : ℕ} {direction : ℕ → ℚ}

theorem base_eq (v : Vertex P) : v.base = P.value v.point := by
  rw [v.value_eq _ v.solves, sum_eq_zero, add_zero]
  intro j _
  by_cases hj : j ∈ v.basis
  · rw [v.rate_eq_zero j hj, zero_mul]
  · rw [v.point_eq_zero j hj, mul_zero]

/-- Where no allowed rate is above zero, no other solution that is not negative has a greater value.
-/
theorem value_le (v : Vertex P) (allowed : ℕ → Prop)
    (hrate : ∀ j < P.size, allowed j → v.rate j ≤ 0) {x : ℕ → ℚ} (hx : x ∈ P.solutions)
    (hnonneg : ∀ j < P.size, 0 ≤ x j) (hzero : ∀ j < P.size, ¬ allowed j → x j = 0) :
    P.value x ≤ P.value v.point := by
  rw [v.value_eq x hx, ← v.base_eq]
  have hle : ∑ j ∈ range P.size, v.rate j * x j ≤ 0 := by
    refine sum_nonpos fun j hj => ?_
    have hj' := mem_range.1 hj
    by_cases hallowed : allowed j
    · exact mul_nonpos_of_nonpos_of_nonneg (hrate j hj' hallowed) (hnonneg j hj')
    · rw [hzero j hj' hallowed, mul_zero]
  linarith

theorem value_eq_of_basis_eq (h : v.basis = w.basis) : P.value v.point = P.value w.point := by
  rw [← v.base_eq, v.value_eq _ w.solves, sum_eq_zero, add_zero]
  intro j _
  by_cases hj : j ∈ v.basis
  · rw [v.rate_eq_zero j hj, zero_mul]
  · rw [w.point_eq_zero j (h ▸ hj), mul_zero]

end Vertex

namespace Leads

variable {v w : Vertex P} {entering leaving : ℕ} {direction : ℕ → ℚ}

theorem sum_rate (h : Leads v entering direction) (w : Vertex P) :
    ∑ j ∈ range P.size, w.rate j * direction j = ∑ j ∈ range P.size, P.costs j * direction j := by
  have hvalue := w.value_eq _ (h.keeps _ v.solves 1)
  have hsum : ∑ j ∈ range P.size, w.rate j * along v.point direction 1 j =
      ∑ j ∈ range P.size, w.rate j * v.point j + ∑ j ∈ range P.size, w.rate j * direction j := by
    rw [← sum_add_distrib]
    exact sum_congr rfl fun j _ => by rw [along]; ring
  rw [value_along, hsum, w.value_eq _ v.solves] at hvalue
  linarith

theorem sum_costs (h : Leads v entering direction) :
    ∑ j ∈ range P.size, P.costs j * direction j = v.rate entering := by
  rw [← h.sum_rate v, sum_eq_single_of_mem entering (mem_range.2 h.lt), h.at_entering, mul_one]
  intro j _ hne
  by_cases hj : j ∈ v.basis
  · rw [v.rate_eq_zero j hj, zero_mul]
  · rw [h.elsewhere j hj hne, mul_zero]

theorem value_add (h : Leads v entering direction) (x : ℕ → ℚ) (step : ℚ) :
    P.value (along x direction step) = P.value x + step * v.rate entering := by
  rw [value_along, h.sum_costs]

end Leads

/-- A pivot from one vertex to another. The leaving column bounds the step. -/
structure Pivots (v w : Vertex P) (entering leaving : ℕ) (direction : ℕ → ℚ) : Prop
    extends Leads v entering direction where
  nonneg : ∀ j, 0 ≤ v.point j
  leaving_mem : leaving ∈ v.basis
  falls : direction leaving < 0
  bounds : ∀ j, direction j < 0 → v.point leaving / -direction leaving ≤ v.point j / -direction j
  improves : 0 < v.rate entering
  basis_eq : w.basis = insert entering (v.basis.erase leaving)
  point_eq : w.point = along v.point direction (v.point leaving / -direction leaving)

/-- A pivot for which the smallest column is chosen twice. -/
structure Bland (allowed : ℕ → Prop) (v w : Vertex P) (entering leaving : ℕ) (direction : ℕ → ℚ) : Prop
    extends Pivots v w entering leaving direction where
  entering_allowed : allowed entering
  first : ∀ j < P.size, allowed j → 0 < v.rate j → entering ≤ j
  ties : ∀ j, direction j < 0 → v.point j / -direction j = v.point leaving / -direction leaving →
    leaving ≤ j

namespace Pivots

variable {v w : Vertex P} {entering leaving : ℕ} {direction : ℕ → ℚ}

theorem step_nonneg (h : Pivots v w entering leaving direction) :
    0 ≤ v.point leaving / -direction leaving :=
  div_nonneg (h.nonneg leaving) (neg_pos.2 h.falls).le

theorem point_nonneg (h : Pivots v w entering leaving direction) (j : ℕ) : 0 ≤ w.point j := by
  rw [h.point_eq, along]
  have hstep := h.step_nonneg
  have hj := h.nonneg j
  rcases lt_or_ge (direction j) 0 with hneg | hnonneg
  · have hbound := (le_div_iff₀ (neg_pos.2 hneg)).1 (h.bounds j hneg)
    linarith
  · have hproduct := mul_nonneg hstep hnonneg
    linarith

theorem value_eq (h : Pivots v w entering leaving direction) :
    P.value w.point = P.value v.point + v.point leaving / -direction leaving * v.rate entering := by
  rw [h.point_eq, h.toLeads.value_add]

theorem value_le (h : Pivots v w entering leaving direction) : P.value v.point ≤ P.value w.point := by
  have hproduct := mul_nonneg h.step_nonneg h.improves.le
  rw [h.value_eq]
  linarith

theorem point_eq_of_value_eq (h : Pivots v w entering leaving direction)
    (hvalue : P.value w.point = P.value v.point) : w.point = v.point := by
  rw [h.value_eq, add_eq_left, mul_eq_zero] at hvalue
  have hstep := hvalue.resolve_right h.improves.ne'
  funext j
  rw [h.point_eq, along, hstep, zero_mul, add_zero]

theorem mem_basis_iff (h : Pivots v w entering leaving direction) {j : ℕ} :
    j ∈ w.basis ↔ j = entering ∨ j ≠ leaving ∧ j ∈ v.basis := by
  rw [h.basis_eq, mem_insert, mem_erase]

end Pivots

/-! ## The smallest column -/

section bland

variable {n : ℕ} {allowed : ℕ → Prop} {v : ℕ → Vertex P} {entering leaving : ℕ → ℕ}
  {direction : ℕ → ℕ → ℚ}

theorem exists_leaving (h : ∀ k < n, Pivots (v k) (v (k + 1)) (entering k) (leaving k) (direction k))
    {i k j : ℕ} (hik : i ≤ k) (hk : k ≤ n) (hi : j ∈ (v i).basis) (hj : j ∉ (v k).basis) :
    ∃ l < n, leaving l = j := by
  induction k, hik using Nat.le_induction with
  | base => exact absurd hi hj
  | succ k hik ih =>
    by_cases hmem : j ∈ (v k).basis
    · refine ⟨k, hk, ?_⟩
      by_contra hne
      exact hj ((h k hk).mem_basis_iff.2 (Or.inr ⟨Ne.symm hne, hmem⟩))
    · exact ih (Nat.le_of_succ_le hk) hmem

/-- A column of one vertex that is not one of an earlier vertex has entered in between. -/
theorem exists_entering (h : ∀ k < n, Pivots (v k) (v (k + 1)) (entering k) (leaving k) (direction k))
    {i k j : ℕ} (hik : i ≤ k) (hk : k ≤ n) (hi : j ∉ (v i).basis) (hj : j ∈ (v k).basis) :
    ∃ l < n, entering l = j := by
  induction k, hik using Nat.le_induction with
  | base => exact absurd hj hi
  | succ k hik ih =>
    by_cases hmem : j ∈ (v k).basis
    · exact ih (Nat.le_of_succ_le hk) hmem
    · rw [(h k hk).mem_basis_iff] at hj
      exact ⟨k, hk, (hj.resolve_right fun hand => hmem hand.2).symm⟩

theorem exists_leaving_of_entering
    (h : ∀ k < n, Pivots (v k) (v (k + 1)) (entering k) (leaving k) (direction k))
    (hbasis : (v n).basis = (v 0).basis) {l : ℕ} (hl : l < n) : ∃ k < n, leaving k = entering l := by
  have hnext : entering l ∈ (v (l + 1)).basis := (h l hl).mem_basis_iff.2 (Or.inl rfl)
  by_cases hmem : entering l ∈ (v 0).basis
  · exact exists_leaving h (Nat.zero_le l) hl.le hmem (h l hl).fresh
  · exact exists_leaving h hl (Nat.le_refl n) hnext (hbasis ▸ hmem)

theorem exists_entering_of_leaving
    (h : ∀ k < n, Pivots (v k) (v (k + 1)) (entering k) (leaving k) (direction k))
    (hbasis : (v n).basis = (v 0).basis) {l : ℕ} (hl : l < n) : ∃ k < n, entering k = leaving l := by
  have hnext : leaving l ∉ (v (l + 1)).basis := fun hmem => by
    rcases (h l hl).mem_basis_iff.1 hmem with heq | ⟨hne, -⟩
    · exact (h l hl).fresh (heq ▸ (h l hl).leaving_mem)
    · exact hne rfl
  by_cases hmem : leaving l ∈ (v 0).basis
  · exact exists_entering h hl (Nat.le_refl n) hnext (hbasis ▸ hmem)
  · exact exists_entering h (Nat.zero_le l) hl.le hmem (h l hl).leaving_mem

theorem point_eq_of_basis_eq
    (h : ∀ k < n, Pivots (v k) (v (k + 1)) (entering k) (leaving k) (direction k))
    (hbasis : (v n).basis = (v 0).basis) {k : ℕ} (hk : k ≤ n) : (v k).point = (v 0).point := by
  have hmono : ∀ i k, i ≤ k → k ≤ n → P.value (v i).point ≤ P.value (v k).point := by
    intro i k hik
    induction k, hik using Nat.le_induction with
    | base => exact fun _ => le_refl _
    | succ k hik ih => exact fun hk => (ih (Nat.le_of_succ_le hk)).trans (h k hk).value_le
  have hends := Vertex.value_eq_of_basis_eq hbasis
  induction k with
  | zero => rfl
  | succ k ih =>
    have hprevious := ih (Nat.le_of_succ_le hk)
    have hle := hmono (k + 1) n hk (Nat.le_refl n)
    rw [hends, ← hprevious] at hle
    exact ((h k hk).point_eq_of_value_eq (le_antisymm hle (h k hk).value_le)).trans hprevious

/-- With the smallest column entering and leaving, no basis is met again. -/
theorem basis_ne_of_bland
    (h : ∀ k < n, Bland allowed (v k) (v (k + 1)) (entering k) (leaving k) (direction k)) (hn : 0 < n) :
    (v n).basis ≠ (v 0).basis := by
  intro hbasis
  have hpivots : ∀ k < n, Pivots (v k) (v (k + 1)) (entering k) (leaving k) (direction k) :=
    fun k hk => (h k hk).toPivots
  -- the greatest column that moves enters at `k` and leaves at `l`
  obtain ⟨k, hk, hgreatest⟩ := exists_max_image (range n) entering ⟨0, mem_range.2 hn⟩
  rw [mem_range] at hk
  obtain ⟨l, hl, hleaving⟩ := exists_leaving_of_entering hpivots hbasis hk
  have hsum : 0 < ∑ j ∈ range P.size, (v k).rate j * direction l j := by
    rw [(h l hl).toLeads.sum_rate, (h l hl).toLeads.sum_costs]
    exact (h l hl).improves
  obtain ⟨j, hj, hproduct⟩ : ∃ j ∈ range P.size, 0 < (v k).rate j * direction l j := by
    by_contra hnone
    exact hsum.not_ge (sum_nonpos fun j hj => not_lt.1 fun hlt => hnone ⟨j, hj, hlt⟩)
  rw [mem_range] at hj
  have houtside : j ∉ (v k).basis := fun hmem => by
    rw [(v k).rate_eq_zero j hmem, zero_mul] at hproduct
    exact lt_irrefl 0 hproduct
  -- this column moves
  obtain ⟨m, hm, hentering⟩ : ∃ m < n, entering m = j := by
    by_cases hmem : j ∈ (v l).basis
    · rcases Nat.le_total l k with hlk | hkl
      · obtain ⟨m, hm, rfl⟩ := exists_leaving hpivots hlk hk.le hmem houtside
        exact exists_entering_of_leaving hpivots hbasis hm
      · exact exists_entering hpivots hkl hl.le houtside hmem
    · refine ⟨l, hl, ?_⟩
      by_contra hne
      rw [(h l hl).elsewhere j hmem (Ne.symm hne), mul_zero] at hproduct
      exact lt_irrefl 0 hproduct
  have hle : j ≤ entering k := hentering ▸ hgreatest m (mem_range.2 hm)
  have hne : j ≠ entering k := by
    rintro rfl
    exact hproduct.not_gt (mul_neg_of_pos_of_neg (h k hk).improves (hleaving ▸ (h l hl).falls))
  have hrate : (v k).rate j < 0 := by
    refine lt_of_le_of_ne (not_lt.1 fun hpos => ?_) fun hzero => ?_
    · have hfirst := (h k hk).first j hj (hentering ▸ (h m hm).entering_allowed) hpos
      exact hne (le_antisymm hle hfirst)
    · rw [hzero, zero_mul] at hproduct
      exact lt_irrefl 0 hproduct
  have hfalls : direction l j < 0 := neg_of_mul_pos_right hproduct hrate.le
  -- it is zero as the greatest one is, and would have left first
  have hpoint : (v l).point = (v k).point :=
    (point_eq_of_basis_eq hpivots hbasis hl.le).trans (point_eq_of_basis_eq hpivots hbasis hk.le).symm
  have htie := (h l hl).ties j hfalls (by
    rw [hleaving, hpoint, (v k).point_eq_zero j houtside, (v k).point_eq_zero _ (h k hk).fresh, zero_div,
      zero_div])
  exact hne (le_antisymm hle (hleaving ▸ htie))

end bland

end Satisfiability.Linear
