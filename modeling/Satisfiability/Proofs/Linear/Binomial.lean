import Mathlib.Data.Nat.Choose.Bounds
import Satisfiability.Linear.Simplex

/-!
# Bounded binomial coefficients

The numbers of ways that the computation passes are binomial coefficients, since each division is
exact, and up to the middle they grow. So once one of them is above the bound the last one is too,
and the result is the coefficient or the bound, whichever is smaller (`boundedBinomial_eq_min`). No
product on the way needs more than twice the bits of its factors.
-/

namespace Satisfiability.Linear

variable {n k steps i ways : ℕ}

/-! ## Coefficients one after the other -/

theorem choose_mul_sub (n i : ℕ) : n.choose i * (n - i) = n.choose (i + 1) * (i + 1) :=
  (Nat.choose_succ_right_eq n i).symm

theorem choose_mul_sub_div (n i : ℕ) : n.choose i * (n - i) / (i + 1) = n.choose (i + 1) := by
  rw [choose_mul_sub, Nat.mul_div_cancel _ (Nat.succ_pos i)]

theorem choose_le_choose_of_le_half {j : ℕ} (hij : i ≤ j) (hj : j ≤ n / 2) :
    n.choose i ≤ n.choose j := by
  induction j, hij using Nat.le_induction with
  | base => exact Nat.le_refl _
  | succ j _ ih => exact (ih (by omega)).trans (Nat.choose_le_succ_of_lt_half_left hj)

/-- From a coefficient within the bound the computation goes to the last one, or to the bound. -/
theorem binomialFrom_eq_min (hhalf : i + steps ≤ n / 2) (hle : n.choose i ≤ greatestWord) :
    binomialFrom n steps i (n.choose i) = min (n.choose (i + steps)) greatestWord := by
  induction steps generalizing i with
  | zero => exact (Nat.min_eq_left hle).symm
  | succ steps ih =>
    have hnext : i + 1 + steps = i + (steps + 1) := by omega
    unfold binomialFrom
    simp only [choose_mul_sub_div]
    split
    · -- the coefficients to come are no smaller than the one above the bound
      rename_i hgreat
      have hmono : n.choose (i + 1) ≤ n.choose (i + (steps + 1)) :=
        choose_le_choose_of_le_half (by omega) hhalf
      exact (Nat.min_eq_right (hgreat.le.trans hmono)).symm
    · rename_i hsmall
      rw [ih (by omega) (Nat.not_lt.1 hsmall), hnext]

theorem min_le_half (n k : ℕ) : min k (n - k) ≤ n / 2 := by omega

theorem choose_min (h : k ≤ n) : n.choose (min k (n - k)) = n.choose k := by
  rcases Nat.le_total k (n - k) with hle | hle
  · rw [Nat.min_eq_left hle]
  · rw [Nat.min_eq_right hle, Nat.choose_symm h]

theorem one_le_greatestWord : 1 ≤ greatestWord := by decide

theorem boundedBinomial_eq_min (n k : ℕ) : boundedBinomial n k = min (n.choose k) greatestWord := by
  unfold boundedBinomial
  split
  · rename_i hlt
    rw [Nat.choose_eq_zero_of_lt hlt, Nat.zero_min]
  · rename_i hle
    have hhalf : 0 + min k (n - k) ≤ n / 2 := (Nat.zero_add _).trans_le (min_le_half n k)
    have hone : n.choose 0 ≤ greatestWord := (Nat.choose_zero_right n).trans_le one_le_greatestWord
    have hfrom := binomialFrom_eq_min hhalf hone
    rwa [Nat.choose_zero_right, Nat.zero_add, choose_min (Nat.not_lt.1 hle)] at hfrom

theorem boundedBinomial_le (n k : ℕ) : boundedBinomial n k ≤ 2 ^ n := by
  rw [boundedBinomial_eq_min]
  exact (Nat.min_le_left _ _).trans (Nat.choose_le_two_pow n k)

/-! ## Products on the way -/

/-- The calls of `binomialFrom` for the ways to choose `k` of `n` things: the first one, and after a
call that has a step to make and stays within the bound the next one. -/
inductive BinomialCall (n k : ℕ) : (steps i ways : ℕ) → Prop
  | first (h : k ≤ n) : BinomialCall n k (min k (n - k)) 0 1
  | next {steps i ways : ℕ} (h : BinomialCall n k (steps + 1) i ways)
    (hle : ways * (n - i) / (i + 1) ≤ greatestWord) :
    BinomialCall n k steps (i + 1) (ways * (n - i) / (i + 1))

theorem BinomialCall.spec (h : BinomialCall n k steps i ways) :
    k ≤ n ∧ i + steps = min k (n - k) ∧ ways = n.choose i ∧ ways ≤ greatestWord := by
  induction h with
  | first hk => exact ⟨hk, Nat.zero_add _, (Nat.choose_zero_right n).symm, one_le_greatestWord⟩
  | @next steps i ways _ hle ih =>
    obtain ⟨hk, hsteps, rfl, -⟩ := ih
    exact ⟨hk, by omega, choose_mul_sub_div n i, hle⟩

theorem BinomialCall.result (h : BinomialCall n k steps i ways) :
    binomialFrom n steps i ways = boundedBinomial n k := by
  induction h with
  | first hk => rw [boundedBinomial, if_neg (Nat.not_lt.2 hk)]
  | next _ hle ih => rwa [binomialFrom, if_neg (Nat.not_lt.2 hle)] at ih

theorem mul_lt_of_le_greatestWord {a b : ℕ} (ha : a ≤ greatestWord) (hb : b ≤ greatestWord) :
    a * b < 2 ^ 128 :=
  (Nat.mul_le_mul ha hb).trans_lt (by decide)

/-- The result is the binomial coefficient or the greatest word, whichever is smaller. Each call on
the way with a step to make gives this result; its difference is not cut off, its product fits in
128 bits, its division is exact, and where it ends the computation early the coefficient asked for
is above the bound. -/
theorem boundedBinomial_exact (hn : n ≤ greatestWord) (k : ℕ) :
    boundedBinomial n k = min (n.choose k) greatestWord ∧
      ∀ steps i ways, BinomialCall n k (steps + 1) i ways →
        binomialFrom n (steps + 1) i ways = boundedBinomial n k ∧ i < n ∧
        ways * (n - i) < 2 ^ 128 ∧ i + 1 ∣ ways * (n - i) ∧
        (greatestWord < ways * (n - i) / (i + 1) → greatestWord < n.choose k) := by
  refine ⟨boundedBinomial_eq_min n k, fun steps i ways h => ?_⟩
  obtain ⟨hk, hsteps, rfl, hle⟩ := h.spec
  have hdifference : n - i ≤ greatestWord := (Nat.sub_le n i).trans hn
  refine ⟨h.result, by omega, mul_lt_of_le_greatestWord hle hdifference, ?_, fun hgreat => ?_⟩
  · rw [choose_mul_sub]
    exact Nat.dvd_mul_left _ _
  · -- the coefficient passed is not behind the middle, and neither is the one asked for
    rw [choose_mul_sub_div] at hgreat
    have hhalf := min_le_half n k
    have hmono : n.choose (i + 1) ≤ n.choose (min k (n - k)) :=
      choose_le_choose_of_le_half (by omega) hhalf
    exact hgreat.trans_le (hmono.trans_eq (choose_min hk))

/-- The greatest product there can be: two of the greatest number of things. -/
theorem boundedBinomial_exact_greatest :
    greatestWord ≤ greatestWord ∧ BinomialCall greatestWord 2 1 1 greatestWord ∧
      boundedBinomial greatestWord 2 = min (greatestWord.choose 2) greatestWord ∧
      greatestWord * (greatestWord - 1) < 2 ^ 128 ∧ greatestWord < greatestWord.choose 2 := by
  have hfirst : BinomialCall greatestWord 2 2 0 1 := .first (by decide)
  have hcall : BinomialCall greatestWord 2 1 1 greatestWord := hfirst.next (by decide)
  obtain ⟨hresult, hcalls⟩ := boundedBinomial_exact (Nat.le_refl greatestWord) 2
  obtain ⟨-, -, hproduct, -, hearly⟩ := hcalls 0 1 greatestWord hcall
  exact ⟨Nat.le_refl _, hcall, hresult, hproduct, hearly (by decide)⟩

end Satisfiability.Linear
