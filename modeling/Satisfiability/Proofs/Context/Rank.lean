import Mathlib.Algebra.GroupWithZero.Nat
import Satisfiability.Proofs.Search.Trail
import Satisfiability.Context.Basic

/-!
# The rank of a trail

Each literal of a trail counts as a power of a fixed base, the greater the lower its level. One
literal counts more than all literals of higher levels together, so that the rank rises whenever a
literal is added and only higher levels are closed (`rank_lt`). Ranks are bounded by the budget for
rounds (`rank_lt_roundBudget`).
-/

namespace Satisfiability.Context

open Search Trail

variable {atoms level : Nat} {marks : List (Literal × Nat)}

def rank (atoms : Nat) (marks : List (Literal × Nat)) : Nat :=
  (marks.map fun mark => (atoms + 2) ^ (atoms + 1 - mark.2)).sum

theorem rank_append (marks more : List (Literal × Nat)) :
    rank atoms (marks ++ more) = rank atoms marks + rank atoms more := by
  simp [rank]

theorem rank_filter (atoms : Nat) (p : Literal × Nat → Bool) (marks : List (Literal × Nat)) :
    rank atoms marks = rank atoms (marks.filter p) + rank atoms (marks.filter fun mark => !p mark)
    := by
  induction marks with
  | nil => rfl
  | cons mark rest ih =>
    have hcons : ∀ marks, rank atoms (mark :: marks) = rank atoms [mark] + rank atoms marks :=
      fun marks => rank_append [mark] marks
    rw [hcons rest, ih]
    by_cases hmark : p mark
    · rw [List.filter_cons_of_pos hmark, List.filter_cons_of_neg (by simpa using hmark),
        hcons (rest.filter p)]
      omega
    · rw [List.filter_cons_of_neg hmark, List.filter_cons_of_pos (by simpa using hmark),
        hcons (rest.filter fun mark => !p mark)]
      omega

theorem rank_le (hlevel : ∀ mark ∈ marks, level ≤ mark.2) :
    rank atoms marks ≤ marks.length * (atoms + 2) ^ (atoms + 1 - level) := by
  induction marks with
  | nil => exact Nat.zero_le _
  | cons mark rest ih =>
    have hrest := ih fun other hother => hlevel other (List.mem_cons_of_mem _ hother)
    have hmark : (atoms + 2) ^ (atoms + 1 - mark.2) ≤ (atoms + 2) ^ (atoms + 1 - level) := by
      refine Nat.pow_le_pow_right (by omega) ?_
      have := hlevel mark List.mem_cons_self
      omega
    rw [List.length_cons, Nat.succ_mul]
    unfold rank at hrest ⊢
    rw [List.map_cons, List.sum_cons]
    omega

theorem rank_lt_roundBudget (hlength : marks.length ≤ atoms) :
    rank atoms marks < roundBudget atoms := by
  have hle : rank atoms marks ≤ marks.length * (atoms + 2) ^ (atoms + 1 - 0) :=
    rank_le fun _ _ => Nat.zero_le _
  have hmul : marks.length * (atoms + 2) ^ (atoms + 1) < (atoms + 2) * (atoms + 2) ^ (atoms + 1) :=
    Nat.mul_lt_mul_of_pos_right (by omega) (Nat.pow_pos (by omega))
  have hpow : roundBudget atoms = (atoms + 2) * (atoms + 2) ^ (atoms + 1) := by
    change (atoms + 2) ^ (atoms + 2) = _
    rw [Nat.pow_succ, Nat.mul_comm]
  rw [hpow]
  exact Nat.lt_of_le_of_lt hle hmul

/-- A new literal on a level counts more than all that was above. -/
theorem rank_lt {marks' news : List (Literal × Nat)} (hlength : marks.length ≤ atoms)
    (hlevel : level ≤ atoms) (hmarks : marks' = upTo level marks ++ news) (hne : news ≠ [])
    (hnews : ∀ mark ∈ news, mark.2 = level) : rank atoms marks < rank atoms marks' := by
  have habove : rank atoms (marks.filter fun mark => !decide (mark.2 ≤ level)) ≤
      marks.length * (atoms + 2) ^ (atoms - level) := by
    have hhigher : ∀ mark ∈ marks.filter fun mark => !decide (mark.2 ≤ level),
        level + 1 ≤ mark.2 := by
      intro mark hmark
      have := (List.mem_filter.1 hmark).2
      simp only [Bool.not_eq_true', decide_eq_false_iff_not] at this
      omega
    refine Nat.le_trans (rank_le hhigher) ?_
    rw [show atoms + 1 - (level + 1) = atoms - level by omega]
    exact Nat.mul_le_mul_right _ (List.length_filter_le _ _)
  -- there are fewer marks above than one mark on the level counts
  have hless : marks.length * (atoms + 2) ^ (atoms - level) <
      (atoms + 2) * (atoms + 2) ^ (atoms - level) :=
    Nat.mul_lt_mul_of_pos_right (by omega) (Nat.pow_pos (by omega))
  have hnew : (atoms + 2) * (atoms + 2) ^ (atoms - level) ≤ rank atoms news := by
    obtain ⟨mark, rest, rfl⟩ := List.exists_cons_of_ne_nil hne
    have hmark := hnews mark List.mem_cons_self
    unfold rank
    rw [List.map_cons, List.sum_cons, hmark, show atoms + 1 - level = atoms - level + 1 by omega,
      Nat.pow_succ, Nat.mul_comm]
    exact Nat.le_add_right _ _
  have hsplit := rank_filter atoms (fun mark => decide (mark.2 ≤ level)) marks
  rw [hmarks, rank_append]
  unfold upTo
  omega

end Satisfiability.Context
