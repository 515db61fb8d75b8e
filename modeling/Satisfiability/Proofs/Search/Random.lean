import Satisfiability.Search.Random

/-!
# Random choices

All that is asked of a source of randomness is that an index is below its bound. Then a choice from
a list is one of its elements, and there is none only for the empty list.
-/

namespace Satisfiability.Search

/-- An index drawn is below its bound. -/
class LawfulRandomSource (ρ : Type) [RandomSource ρ] : Prop where
  index_lt : ∀ (bound : Nat) (source : ρ), 0 < bound → (RandomSource.index bound source).1 < bound

theorem SplitMix.indexWithin_lt {bound : Nat} (hbound : 0 < bound) (tries : Nat)
    (source : SplitMix) : (indexWithin bound tries source).1 < bound := by
  induction tries generalizing source with
  | zero => exact hbound
  | succ tries ih =>
    unfold indexWithin
    dsimp only
    split
    · -- the upper half of a product of a 32-bit word and the bound
      have hword : source.next.1.toNat % halfWordCount < halfWordCount := Nat.mod_lt _ (by decide)
      exact Nat.div_lt_of_lt_mul (Nat.mul_lt_mul_of_pos_right hword hbound)
    · exact ih _

instance : LawfulRandomSource SplitMix :=
  ⟨fun _ source hbound => SplitMix.indexWithin_lt hbound wordCount source⟩

variable {ρ α : Type} [RandomSource ρ] [LawfulRandomSource ρ]

/-- The choice is an element, or there is none to choose. -/
def ChosenFrom (elements : List α) : Option α → Prop
  | none => elements = []
  | some a => a ∈ elements

theorem ChosenFrom.concat {seen : List α} {choice : Option α} (h : ChosenFrom seen choice)
    (a : α) (source : ρ) : ChosenFrom (seen ++ [a])
      (if (RandomSource.index (seen.length + 1) source).1 = 0 then some a else choice) := by
  split
  · exact List.mem_append_right _ List.mem_cons_self
  · rename_i hother
    cases choice with
    | some b => exact List.mem_append_left _ h
    | none =>
      have hlt := LawfulRandomSource.index_lt (seen.length + 1) source (Nat.succ_pos _)
      rw [show seen = [] from h] at hlt hother
      exact absurd (Nat.lt_one_iff.1 hlt) hother

theorem chosenFrom_foldl {replace : (Option α × Nat) × ρ → α → (Option α × Nat) × ρ}
    (hreplace : ∀ choice k source a, replace ((choice, k), source) a =
      ((if (RandomSource.index (k + 1) source).1 = 0 then some a else choice, k + 1),
        (RandomSource.index (k + 1) source).2))
    {seen : List α} {choice : Option α} (h : ChosenFrom seen choice) (rest : List α) (source : ρ) :
    ChosenFrom (seen ++ rest) (rest.foldl replace ((choice, seen.length), source)).1.1 := by
  induction rest generalizing seen choice source with
  | nil =>
    rw [List.append_nil]
    exact h
  | cons a rest ih =>
    have hnext := ih (h.concat a source) (RandomSource.index (seen.length + 1) source).2
    rw [List.length_append, List.length_singleton, List.append_assoc] at hnext
    rw [List.foldl_cons, hreplace]
    exact hnext

theorem chosenFrom_choose (elements : List α) (source : ρ) :
    ChosenFrom elements (choose elements source).1 := by
  have hnothing : ChosenFrom ([] : List α) none := rfl
  exact chosenFrom_foldl (fun _ _ _ _ => rfl) hnothing elements source

end Satisfiability.Search
