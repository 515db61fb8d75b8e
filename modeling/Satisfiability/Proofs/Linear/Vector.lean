import Mathlib.Algebra.BigOperators.Group.Finset.Basic
import Mathlib.Algebra.BigOperators.Ring.Finset
import Mathlib.Algebra.Order.Ring.Rat
import Mathlib.Data.List.GetD
import Mathlib.Tactic.Linarith
import Mathlib.Tactic.Ring
import Satisfiability.Scalar

/-!
# Vectors of exact numbers

For the rationals the operations of a scalar are those of the ordered field, and the sum of products
of two lists is the sum over their common indices. An index that a list does not reach counts as
zero (`dot_eq_sum`), so that lengths matter only where two lists are joined.
-/

namespace Satisfiability

open Finset

/-! ## Rational scalars -/

namespace Scalar

@[simp]
theorem zero_rat : (zero : ℚ) = 0 := rfl

@[simp]
theorem one_rat : (one : ℚ) = 1 := rfl

@[simp]
theorem less_rat {x y : ℚ} : less x y = decide (x < y) := rfl

@[simp]
theorem atMost_rat {x y : ℚ} : atMost x y = decide (x ≤ y) := rfl

@[simp]
theorem same_rat {x y : ℚ} : same x y = decide (x = y) := rfl

@[simp]
theorem magnitude_rat (x : ℚ) : magnitude x = |x| := by
  change (if x < 0 then -x else x) = |x|
  split
  · rename_i h
    exact (abs_of_neg h).symm
  · rename_i h
    exact (abs_of_nonneg (not_lt.1 h)).symm

theorem order_rat {x y : ℚ} : (order x y).isLE = true ↔ x ≤ y := by
  change (if x < y then Ordering.lt else if x = y then .eq else .gt).isLE = true ↔ x ≤ y
  rcases lt_trichotomy x y with h | h | h
  · simp [h, h.le]
  · simp [h]
  · simp [h.not_gt, h.ne', h.not_ge]

theorem positivePart_rat {x : ℚ} (h : 0 ≤ x) : positivePart x = x := by
  change (if decide (0 < x) then x else 0) = x
  rcases h.lt_or_eq with h | rfl
  · simp [h]
  · simp

theorem sum_nil_rat : sum ([] : List ℚ) = 0 := rfl

theorem sum_cons_rat (x : ℚ) (xs : List ℚ) : sum (x :: xs) = x + sum xs := by
  have hfold : ∀ (ys : List ℚ) (a b : ℚ), ys.foldl (· + ·) (a + b) = a + ys.foldl (· + ·) b := by
    intro ys
    induction ys with
    | nil => exact fun _ _ => rfl
    | cons y ys ih =>
      intro a b
      rw [List.foldl_cons, List.foldl_cons, add_assoc, ih]
  have hzero : (-zero : ℚ) + x = x + -zero := add_comm _ _
  rw [sum, sum, List.foldl_cons, hzero]
  exact hfold xs x _

/-! ## Sums of products -/

variable {x y : ℚ} {xs ys : List ℚ}

@[simp]
theorem dot_nil_left : dot [] ys = 0 := rfl

@[simp]
theorem dot_nil_right : dot xs [] = 0 := by cases xs <;> rfl

@[simp]
theorem dot_cons : dot (x :: xs) (y :: ys) = x * y + dot xs ys := sum_cons_rat _ _

theorem dot_cons_left : dot (x :: xs) ys = x * ys.headD 0 + dot xs ys.tail := by
  cases ys with
  | nil => simp
  | cons y ys => simp

theorem dot_cons_right : dot xs (y :: ys) = xs.headD 0 * y + dot xs.tail ys := by
  cases xs with
  | nil => simp
  | cons x xs => simp

theorem dot_eq_head_add_tail (xs ys : List ℚ) :
    dot xs ys = xs.headD 0 * ys.headD 0 + dot xs.tail ys.tail := by
  cases xs with
  | nil => simp
  | cons x xs => exact dot_cons_left

/-- A sum of products is one over all indices up to any bound that one of the lists does not exceed.
-/
theorem dot_eq_sum {n : ℕ} (h : xs.length ≤ n ∨ ys.length ≤ n) :
    dot xs ys = ∑ i ∈ range n, xs.getD i 0 * ys.getD i 0 := by
  induction n generalizing xs ys with
  | zero => rcases h with h | h <;> rw [List.length_eq_zero_iff.1 (Nat.le_zero.1 h)] <;> simp
  | succ n ih =>
    rw [sum_range_succ', add_comm]
    cases xs with
    | nil => simp
    | cons x xs =>
      cases ys with
      | nil => simp
      | cons y ys =>
        rw [dot_cons, ih (h.imp Nat.le_of_succ_le_succ Nat.le_of_succ_le_succ)]
        simp

theorem dot_comm (xs ys : List ℚ) : dot xs ys = dot ys xs := by
  rw [dot_eq_sum (Or.inl (Nat.le_refl _)), dot_eq_sum (Or.inr (Nat.le_refl _))]
  exact sum_congr rfl fun _ _ => mul_comm _ _

theorem dot_concat (xs ys : List ℚ) (y : ℚ) :
    dot xs (ys ++ [y]) = dot xs ys + xs.getD ys.length 0 * y := by
  induction ys generalizing xs with
  | nil => cases xs <;> simp
  | cons first ys ih =>
    cases xs with
    | nil => simp
    | cons x xs =>
      rw [List.cons_append, dot_cons, dot_cons, ih, List.length_cons, List.getD_cons_succ]
      ring

theorem dot_concat_concat {xs ys : List ℚ} (h : xs.length = ys.length) (x y : ℚ) :
    dot (xs ++ [x]) (ys ++ [y]) = dot xs ys + x * y := by
  rw [dot_concat, dot_comm, dot_concat, dot_comm ys, List.getD_eq_default _ _ h.ge, ← h,
    List.getD_append_right _ _ _ _ (Nat.le_refl _)]
  simp

theorem dot_replicate_zero (n : ℕ) (ys : List ℚ) : dot (List.replicate n 0) ys = 0 := by
  rw [dot_eq_sum (Or.inl (Nat.le_refl _))]
  refine sum_eq_zero fun i _ => ?_
  rw [List.getD_eq_getElem?_getD, List.getElem?_getD_replicate_default_eq, zero_mul]

theorem dot_zipWith_sub {zs : List ℚ} (h : xs.length = ys.length) (factor : ℚ) :
    dot (List.zipWith (fun x y => x - factor * y) xs ys) zs = dot xs zs - factor * dot ys zs := by
  induction xs generalizing ys zs with
  | nil =>
    rw [List.length_eq_zero_iff.1 h.symm]
    simp
  | cons x xs ih =>
    cases ys with
    | nil => simp at h
    | cons y ys =>
      cases zs with
      | nil => simp
      | cons z zs =>
        rw [List.zipWith_cons_cons, dot_cons, dot_cons, dot_cons, ih (Nat.succ.inj h)]
        ring

theorem dot_set {i : ℕ} (h : i < xs.length) (x : ℚ) (ys : List ℚ) :
    dot (xs.set i x) ys = dot xs ys + (x - xs.getD i 0) * ys.getD i 0 := by
  induction xs generalizing i ys with
  | nil => exact absurd h (Nat.not_lt_zero i)
  | cons first xs ih =>
    cases i with
    | zero =>
      rw [List.set_cons_zero, dot_cons_left, dot_cons_left, List.getD_cons_zero]
      cases ys with
      | nil => simp
      | cons y ys =>
        rw [List.headD_cons, List.tail_cons, List.getD_cons_zero]
        ring
    | succ i =>
      rw [List.set_cons_succ, dot_cons_left, dot_cons_left, ih (Nat.lt_of_succ_lt_succ h)]
      cases ys <;> simp [add_assoc]

/-! ## Sums over lists -/

variable {α : Type} {f g : α → ℚ} {items : List α}

theorem sum_append_rat (xs ys : List ℚ) : sum (xs ++ ys) = sum xs + sum ys := by
  induction xs with
  | nil => simp [sum_nil_rat]
  | cons x xs ih => rw [List.cons_append, sum_cons_rat, sum_cons_rat, ih, add_assoc]

theorem sum_map_add (items : List α) (f g : α → ℚ) :
    sum (items.map fun a => f a + g a) = sum (items.map f) + sum (items.map g) := by
  induction items with
  | nil => simp [sum_nil_rat]
  | cons a items ih =>
    rw [List.map_cons, List.map_cons, List.map_cons, sum_cons_rat, sum_cons_rat, sum_cons_rat, ih]
    ring

theorem sum_map_mul_left (items : List α) (x : ℚ) (f : α → ℚ) :
    sum (items.map fun a => x * f a) = x * sum (items.map f) := by
  induction items with
  | nil => simp [sum_nil_rat]
  | cons a items ih => rw [List.map_cons, List.map_cons, sum_cons_rat, sum_cons_rat, ih, mul_add]

theorem sum_map_filter {p : α → Bool} (h : ∀ a ∈ items, p a = false → f a = 0) :
    sum ((items.filter p).map f) = sum (items.map f) := by
  induction items with
  | nil => rfl
  | cons a items ih =>
    obtain ⟨ha, hitems⟩ := List.forall_mem_cons.1 h
    rw [List.map_cons, sum_cons_rat]
    cases hp : p a with
    | true => rw [List.filter_cons_of_pos hp, List.map_cons, sum_cons_rat, ih hitems]
    | false => rw [List.filter_cons_of_neg (Bool.eq_false_iff.1 hp), ih hitems, ha hp, zero_add]

theorem sum_map_eq_zero (h : ∀ a ∈ items, f a = 0) : sum (items.map f) = 0 := by
  have hfilter := sum_map_filter (p := fun _ => false) (f := f) fun a ha _ => h a ha
  rw [← hfilter, List.filter_false, List.map_nil, sum_nil_rat]

theorem sum_eraseIdx (xs : List ℚ) (i : ℕ) : sum (xs.eraseIdx i) = sum xs - xs.getD i 0 := by
  induction xs generalizing i with
  | nil => simp [sum_nil_rat]
  | cons x xs ih =>
    cases i with
    | zero => simp [sum_cons_rat]
    | succ i =>
      rw [List.eraseIdx_cons_succ, sum_cons_rat, sum_cons_rat, ih, List.getD_cons_succ]
      ring

theorem dot_map_map (f g : α → ℚ) (items : List α) :
    dot (items.map f) (items.map g) = sum (items.map fun a => f a * g a) := by
  rw [dot, List.zipWith_map, List.zipWith_self]

theorem dot_map_eq_sum_zip (f : α → ℚ) (items : List α) (ys : List ℚ) :
    dot (items.map f) ys = sum ((items.zip ys).map fun pair => f pair.1 * pair.2) := by
  rw [dot, List.zipWith_map_left, List.zip, List.map_zipWith]

/-! ## Values at some indices -/

/-- The values of some pairs at their indices, added up, and zero elsewhere. -/
def spread (pairs : List (ℕ × ℚ)) (j : ℕ) : ℚ :=
  sum (pairs.map fun pair => if pair.1 = j then pair.2 else 0)

theorem spread_nil (j : ℕ) : spread [] j = 0 := rfl

theorem spread_cons (pair : ℕ × ℚ) (pairs : List (ℕ × ℚ)) (j : ℕ) :
    spread (pair :: pairs) j = (if pair.1 = j then pair.2 else 0) + spread pairs j :=
  sum_cons_rat _ _

theorem spread_of_not_mem {pairs : List (ℕ × ℚ)} {j : ℕ} (h : j ∉ pairs.map Prod.fst) :
    spread pairs j = 0 := by
  induction pairs with
  | nil => rfl
  | cons pair pairs ih =>
    rw [List.map_cons, List.mem_cons, not_or] at h
    rw [spread_cons, if_neg (Ne.symm h.1), ih h.2, add_zero]

theorem spread_of_mem {pairs : List (ℕ × ℚ)} (hnodup : (pairs.map Prod.fst).Nodup) {pair : ℕ × ℚ}
    (h : pair ∈ pairs) : spread pairs pair.1 = pair.2 := by
  induction pairs with
  | nil => exact absurd h List.not_mem_nil
  | cons first pairs ih =>
    rw [List.map_cons, List.nodup_cons] at hnodup
    rw [spread_cons]
    rcases List.mem_cons.1 h with rfl | h
    · rw [if_pos rfl, spread_of_not_mem hnodup.1, add_zero]
    · have hne : first.1 ≠ pair.1 := fun heq => hnodup.1 (heq ▸ List.mem_map_of_mem h)
      rw [if_neg hne, ih hnodup.2 h, zero_add]

theorem sum_mul_spread {pairs : List (ℕ × ℚ)} {n : ℕ} (h : ∀ pair ∈ pairs, pair.1 < n) (f : ℕ → ℚ) :
    ∑ j ∈ range n, f j * spread pairs j = sum (pairs.map fun pair => f pair.1 * pair.2) := by
  induction pairs with
  | nil => simp [spread_nil, sum_nil_rat]
  | cons pair pairs ih =>
    obtain ⟨hlt, hrest⟩ := List.forall_mem_cons.1 h
    simp only [spread_cons, mul_add, sum_add_distrib, ih hrest, List.map_cons, sum_cons_rat]
    congr 1
    rw [sum_eq_single_of_mem pair.1 (mem_range.2 hlt) fun j _ hne => by
      rw [if_neg (Ne.symm hne), mul_zero], if_pos rfl]

theorem getD_foldl_set {pairs : List (ℕ × ℚ)} (hnodup : (pairs.map Prod.fst).Nodup) (xs : List ℚ)
    (hzero : ∀ pair ∈ pairs, xs.getD pair.1 0 = 0) {j : ℕ} (hj : j < xs.length) :
    (pairs.foldl (fun ys pair => ys.set pair.1 pair.2) xs).getD j 0 =
      xs.getD j 0 + spread pairs j := by
  induction pairs generalizing xs with
  | nil => rw [List.foldl_nil, spread_nil, add_zero]
  | cons pair pairs ih =>
    rw [List.map_cons, List.nodup_cons] at hnodup
    obtain ⟨hfirst, hrest⟩ := List.forall_mem_cons.1 hzero
    have hset : ∀ i, i ≠ pair.1 → (xs.set pair.1 pair.2).getD i 0 = xs.getD i 0 := by
      intro i hne
      rw [List.getD_eq_getElem?_getD, List.getElem?_set_ne (Ne.symm hne), List.getD_eq_getElem?_getD]
    rw [List.foldl_cons, ih hnodup.2 _ (fun other hmem => ?_) (by rwa [List.length_set]), spread_cons]
    · by_cases hne : pair.1 = j
      · subst hne
        rw [if_pos rfl, hfirst, List.getD_eq_getElem _ _ (by rwa [List.length_set]), List.getElem_set_self,
          zero_add]
      · rw [if_neg hne, hset j (Ne.symm hne), zero_add]
    · have hne : other.1 ≠ pair.1 := fun heq => hnodup.1 (heq ▸ List.mem_map_of_mem hmem)
      rw [hset _ hne]
      exact hrest other hmem

theorem length_foldl_set (pairs : List (ℕ × ℚ)) (xs : List ℚ) :
    (pairs.foldl (fun ys pair => ys.set pair.1 pair.2) xs).length = xs.length := by
  induction pairs generalizing xs with
  | nil => rfl
  | cons pair pairs ih => rw [List.foldl_cons, ih, List.length_set]

end Scalar

end Satisfiability
