import Satisfiability.Linear.Formula
import Satisfiability.Proofs.Linear.Arithmetic

/-!
# The normal form

The normal form of a formula, or of its negation, is true where the formula is true, or false, in
the arithmetic of the rationals (`NormalForm.means_ofFormula`). Rows count as they are, strict ones
and others.
-/

namespace Satisfiability.Linear

open Satisfiability.FirstOrder (Term)
open Text (ReadingFault)

variable {assignment : String → ℚ}

def Comparison.Holds : Comparison → ℚ → ℚ → Prop
  | atLeast, x, y => x ≥ y
  | atMost, x, y => x ≤ y
  | less, x, y => x < y
  | equal, x, y => x = y
  | notEqual, x, y => x ≠ y

theorem Comparison.related_iff {name : String} {comparison : Comparison}
    (h : ofRelation? name = some comparison) (x y : ℚ) :
    related name [x, y] ↔ comparison.Holds x y := by
  unfold ofRelation? at h
  split_ifs at h <;> subst_vars <;> cases h <;> rfl

namespace Row

def Holds (row : Row ℚ) (assignment : String → ℚ) : Prop :=
  if row.strict then weightedSum row.coefficients assignment < row.bound
  else weightedSum row.coefficients assignment ≤ row.bound

theorem holds_nonPositive_true {a : Expression ℚ} :
    (nonPositive a true).Holds assignment ↔ a.value assignment < 0 := by
  change _ < -a.constant ↔ _ + a.constant < 0
  exact lt_neg_iff_add_neg

theorem holds_nonPositive_false {a : Expression ℚ} :
    (nonPositive a false).Holds assignment ↔ a.value assignment ≤ 0 := by
  change _ ≤ -a.constant ↔ _ + a.constant ≤ 0
  exact le_neg_iff_add_nonpos_right

end Row

namespace NormalForm

variable {clauses other : NormalForm ℚ} {a b : Expression ℚ} {x y : ℚ} {p q : Prop}

def Holds (clauses : NormalForm ℚ) (assignment : String → ℚ) : Prop :=
  ∃ rows ∈ clauses, ∀ row ∈ rows, row.Holds assignment

/-- The normal form holds where the statement does, and its rows have no coefficient that is zero.
-/
structure Means (clauses : NormalForm ℚ) (assignment : String → ℚ) (p : Prop) : Prop where
  reduced : ∀ rows ∈ clauses, ∀ row ∈ rows, Reduced row.coefficients
  holds : clauses.Holds assignment ↔ p

theorem Means.congr (h : clauses.Means assignment p) (hpq : p ↔ q) : clauses.Means assignment q :=
  ⟨h.reduced, h.holds.trans hpq⟩

theorem Means.append (h : clauses.Means assignment p) (h' : other.Means assignment q) :
    (clauses ++ other).Means assignment (p ∨ q) := by
  refine ⟨fun rows hrows => ?_, ?_⟩
  · exact (List.mem_append.1 hrows).elim (h.reduced rows) (h'.reduced rows)
  · rw [← h.holds, ← h'.holds]
    simp only [Holds, List.mem_append, or_and_right, exists_or]

theorem Means.both (h : clauses.Means assignment p) (h' : other.Means assignment q) :
    (both clauses other).Means assignment (p ∧ q) := by
  have hmem : ∀ rows, rows ∈ NormalForm.both clauses other ↔
      ∃ xs ∈ clauses, ∃ ys ∈ other, xs ++ ys = rows := by
    intro rows
    simp only [NormalForm.both, List.mem_flatMap, List.mem_map]
  refine ⟨fun rows hrows row hrow => ?_, ?_⟩
  · obtain ⟨xs, hxs, ys, hys, rfl⟩ := (hmem rows).1 hrows
    exact (List.mem_append.1 hrow).elim (h.reduced xs hxs row) (h'.reduced ys hys row)
  · rw [← h.holds, ← h'.holds]
    constructor
    · rintro ⟨rows, hrows, hall⟩
      obtain ⟨xs, hxs, ys, hys, rfl⟩ := (hmem rows).1 hrows
      obtain ⟨hleft, hright⟩ := List.forall_mem_append.1 hall
      exact ⟨⟨xs, hxs, hleft⟩, ⟨ys, hys, hright⟩⟩
    · rintro ⟨⟨xs, hxs, hleft⟩, ⟨ys, hys, hright⟩⟩
      exact ⟨xs ++ ys, (hmem _).2 ⟨xs, hxs, ys, hys, rfl⟩, List.forall_mem_append.2 ⟨hleft, hright⟩⟩

/-! ## Comparisons -/

theorem means_nonPositive (h : Reduced a.coefficients) (strict : Bool) :
    Means [[.nonPositive a strict]] assignment ((Row.nonPositive a strict).Holds assignment) := by
  refine ⟨?_, ?_⟩
  · rw [List.forall_mem_singleton, List.forall_mem_singleton]
    exact h
  · simp [Holds]

theorem means_ofComparison (comparison : Comparison) (ha : a.StandsFor assignment x)
    (hb : b.StandsFor assignment y) :
    (ofComparison comparison a b).Means assignment (comparison.Holds x y) := by
  have hdifference : (a.addScaled b (-Scalar.one)).value assignment = x - y := by
    rw [Expression.value_addScaled ha.reduced, ha.value, hb.value, Scalar.one_rat]
    ring
  have hreversed : ((a.addScaled b (-Scalar.one)).scale (-Scalar.one)).value assignment = y - x := by
    rw [Expression.value_scale, hdifference, Scalar.one_rat]
    ring
  have hleft : Reduced (a.addScaled b (-Scalar.one)).coefficients :=
    Expression.reduced_addScaled ha.reduced
  have hright : Reduced ((a.addScaled b (-Scalar.one)).scale (-Scalar.one)).coefficients :=
    Expression.reduced_scale
  -- every comparison is one of the difference, or of the reversed one, with zero
  cases comparison with
  | atLeast =>
    refine (means_nonPositive hright false).congr ?_
    rw [Row.holds_nonPositive_false, hreversed]
    exact sub_nonpos
  | atMost =>
    refine (means_nonPositive hleft false).congr ?_
    rw [Row.holds_nonPositive_false, hdifference]
    exact sub_nonpos
  | less =>
    refine (means_nonPositive hleft true).congr ?_
    rw [Row.holds_nonPositive_true, hdifference]
    exact sub_neg
  | equal =>
    refine ((means_nonPositive hleft false).both (means_nonPositive hright false)).congr ?_
    rw [Row.holds_nonPositive_false, Row.holds_nonPositive_false, hdifference, hreversed, sub_nonpos,
      sub_nonpos]
    exact le_antisymm_iff.symm
  | notEqual =>
    refine ((means_nonPositive hleft true).append (means_nonPositive hright true)).congr ?_
    rw [Row.holds_nonPositive_true, Row.holds_nonPositive_true, hdifference, hreversed, sub_neg, sub_neg]
    exact ne_iff_lt_or_gt.symm

theorem means_ofNegation (comparison : Comparison) (ha : a.StandsFor assignment x)
    (hb : b.StandsFor assignment y) :
    (ofNegation comparison a b).Means assignment (¬ comparison.Holds x y) := by
  cases comparison with
  | atLeast => exact (means_ofComparison .less ha hb).congr not_le.symm
  | atMost => exact (means_ofComparison .less hb ha).congr not_le.symm
  | less => exact (means_ofComparison .atLeast ha hb).congr not_lt.symm
  | equal => exact means_ofComparison .notEqual ha hb
  | notEqual => exact (means_ofComparison .equal ha hb).congr not_not.symm

theorem exists_ofAtom_iff {comparison : Comparison} {left right : Term} {positive : Bool} :
    (∃ clauses : NormalForm ℚ, ofAtom comparison left right positive = .ok clauses) ↔
      (∃ a : Expression ℚ, Expression.ofTerm left = .ok a) ∧
        ∃ b : Expression ℚ, Expression.ofTerm right = .ok b := by
  unfold ofAtom
  constructor
  · rintro ⟨clauses, h⟩
    split at h
    · cases h
    · split at h
      · cases h
      · exact ⟨⟨_, ‹_›⟩, ⟨_, ‹_›⟩⟩
  · rintro ⟨⟨a, hleft⟩, b, hright⟩
    rw [hleft, hright]
    exact ⟨_, rfl⟩

theorem means_ofAtom {comparison : Comparison} {left right : Term} {positive : Bool}
    (h : ofAtom comparison left right positive = .ok clauses) :
    clauses.Means assignment (comparison.Holds ((arithmetic assignment).value left)
      ((arithmetic assignment).value right) ↔ positive = true) := by
  unfold ofAtom at h
  split at h
  · cases h
  · rename_i hleft
    split at h
    · cases h
    · rename_i hright
      obtain rfl := Except.ok.inj h
      have ha : Expression.StandsFor _ assignment _ := Expression.standsFor_of_ofTerm hleft
      have hb : Expression.StandsFor _ assignment _ := Expression.standsFor_of_ofTerm hright
      cases positive with
      | true => exact (means_ofComparison comparison ha hb).congr (by simp)
      | false => exact (means_ofNegation comparison ha hb).congr (by simp)

/-! ## Formulas -/

theorem combine_eq_ok {f : NormalForm ℚ → NormalForm ℚ → NormalForm ℚ}
    {first second : Except ReadingFault (NormalForm ℚ)} (h : combine f first second = .ok clauses) :
    ∃ xs ys, first = .ok xs ∧ second = .ok ys ∧ f xs ys = clauses := by
  match first, second with
  | .error _, _ => cases h
  | .ok _, .error _ => cases h
  | .ok xs, .ok ys => exact ⟨xs, ys, rfl, rfl, Except.ok.inj h⟩

theorem Means.conjunction {positive : Bool} (h : clauses.Means assignment (p ↔ positive = true))
    (h' : other.Means assignment (q ↔ positive = true)) :
    ((if positive then NormalForm.both else (· ++ ·)) clauses other).Means assignment
      (p ∧ q ↔ positive = true) := by
  cases positive with
  | true => exact (h.both h').congr (by simp)
  | false => exact (h.append h').congr (by simp [imp_iff_not_or])

theorem Means.disjunction {positive : Bool} (h : clauses.Means assignment (p ↔ positive = true))
    (h' : other.Means assignment (q ↔ positive = true)) :
    ((if positive then (· ++ ·) else NormalForm.both) clauses other).Means assignment
      (p ∨ q ↔ positive = true) := by
  cases positive with
  | true => exact (h.append h').congr (by simp)
  | false => exact (h.both h').congr (by simp)

/-- The normal form of a formula holds where the formula is true, and that of its negation where it
is false. -/
theorem means_ofFormula {positive : Bool} {formula : FirstOrder.Formula}
    (h : ofFormula positive formula = .ok clauses) :
    clauses.Means assignment ((arithmetic assignment).Models formula ↔ positive = true) := by
  -- a negation is read by asking for the other truth value
  have hnot : ∀ (p : Prop) (positive : Bool), (p ↔ (!positive) = true) ↔ (¬ p ↔ positive = true) := by
    intro p positive
    cases positive <;> simp
  induction formula generalizing positive clauses with
  | equality left right => exact means_ofAtom h
  | relation name arguments =>
    unfold ofFormula at h
    split at h
    · rename_i comparison left right hname
      refine (means_ofAtom h).congr ?_
      rw [← comparison.related_iff hname]
      rfl
    · cases h
  | not inner ih => exact (ih h).congr (hnot _ _)
  | and first second ihfirst ihsecond =>
    obtain ⟨xs, ys, hfirst, hsecond, rfl⟩ := combine_eq_ok h
    exact (ihfirst hfirst).conjunction (ihsecond hsecond)
  | or first second ihfirst ihsecond =>
    obtain ⟨xs, ys, hfirst, hsecond, rfl⟩ := combine_eq_ok h
    exact (ihfirst hfirst).disjunction (ihsecond hsecond)
  | implies first second ihfirst ihsecond =>
    obtain ⟨xs, ys, hfirst, hsecond, rfl⟩ := combine_eq_ok h
    refine (((ihfirst hfirst).congr (hnot _ _)).disjunction (ihsecond hsecond)).congr ?_
    rw [← imp_iff_not_or]
    rfl
  | forAll name body _ => cases h
  | exist name body _ => cases h

end NormalForm

end Satisfiability.Linear
