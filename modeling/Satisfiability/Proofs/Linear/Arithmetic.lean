import Mathlib.Algebra.BigOperators.Group.List.Basic
import Mathlib.Algebra.Order.Field.Rat
import Mathlib.Data.Rat.Defs
import Satisfiability.Linear.Row
import Satisfiability.Proofs.FirstOrder.Semantics
import Satisfiability.Proofs.KeyMap
import Satisfiability.Proofs.Linear.Vector

/-!
# Arithmetic over the rationals

Numerals, the functions `plus`, `minus`, `mult` and `multi`, and the relations `GS`, `KS`, `K`, `S`
and `LS` have their meaning in one structure for each assignment of numbers to variables
(`arithmetic`). A term that is read as a linear expression has the value of this expression
(`Expression.value_ofTerm`), whose variables are listed once each, with coefficients that are not
zero (`Reduced`).
-/

namespace Satisfiability

open Text (Numeral ReadingFault)

def Text.Numeral.value (numeral : Numeral) : ℚ :=
  (if numeral.negative then -1 else 1) * numeral.mantissa * 10 ^ numeral.exponent

namespace Linear

open Satisfiability.FirstOrder (Term)
open Scalar

/-- The number that a function makes of others. Functions that are not arithmetic make zero of them.
-/
def applied : String → List ℚ → ℚ
  | "plus", xs => xs.sum
  | "minus", [x] => -x
  | "minus", x :: xs => x - xs.sum
  | "mult", xs => xs.prod
  | "multi", xs => xs.prod
  | _, _ => 0

/-- Whether a relation holds between two numbers. Relations that are not arithmetic hold of nothing.
-/
def related : String → List ℚ → Prop
  | "GS", [x, y] => x ≥ y
  | "KS", [x, y] => x ≤ y
  | "K", [x, y] => x < y
  | "S", [x, y] => x = y
  | "LS", [x, y] => x ≠ y
  | _, _ => False

/-- The rational numbers, with an assignment of numbers to variables. Constants that are not
numerals are zero. -/
def arithmetic (assignment : String → ℚ) : FirstOrder.Structure ℚ where
  var := assignment
  const name := ((Numeral.read? name.toList).map Numeral.value).getD 0
  app := applied
  rel := related

/-! ## Sums of variables with coefficients -/

def weightedSum (coefficients : NameMap ℚ) (assignment : String → ℚ) : ℚ :=
  sum (coefficients.toList.map fun term => term.2 * assignment term.1)

/-- Each variable is listed once, in order, and none has the coefficient zero. -/
structure Reduced (coefficients : NameMap ℚ) : Prop where
  ordered : coefficients.Ordered
  nonzero : ∀ term ∈ coefficients.toList, term.2 ≠ 0

variable {coefficients : NameMap ℚ} {assignment : String → ℚ}

theorem reduced_empty : Reduced .empty := ⟨List.Pairwise.nil, List.forall_mem_nil _⟩

theorem sum_place (name : String) (x : ℚ) {terms : List (String × ℚ)}
    (h : terms.Pairwise fun p q => p.1 < q.1) :
    sum ((KeyMap.place name x terms).map fun term => term.2 * assignment term.1) =
      sum (terms.map fun term => term.2 * assignment term.1) +
        (x - (KeyMap.get? name terms).getD 0) * assignment name := by
  induction terms with
  | nil => simp [KeyMap.place, KeyMap.get?, sum_cons_rat, sum_nil_rat]
  | cons first rest ih =>
    obtain ⟨hfirst, hrest⟩ := List.pairwise_cons.1 h
    unfold KeyMap.place KeyMap.get?
    by_cases hname : first.1 = name
    · rw [if_pos hname, if_pos hname, List.map_cons, List.map_cons, sum_cons_rat, sum_cons_rat, hname,
        Option.getD_some]
      ring
    · rw [if_neg hname, if_neg hname]
      split
      · rw [List.map_cons, List.map_cons, sum_cons_rat, sum_cons_rat, ih hrest]
        ring
      · rename_i hlt
        -- all the others come after the name
        have hnone : KeyMap.get? name rest = none := by
          rw [KeyMap.get?_eq_none_iff]
          intro hmem
          obtain ⟨other, hother, rfl⟩ := List.mem_map.1 hmem
          exact hlt (hfirst other hother)
        rw [hnone, List.map_cons, sum_cons_rat, Option.getD_none]
        ring

theorem weightedSum_insert (h : coefficients.Ordered) (name : String) (x : ℚ) :
    weightedSum (coefficients.insert name x) assignment =
      weightedSum coefficients assignment +
        (x - (coefficients.find? name).getD 0) * assignment name :=
  sum_place name x h

theorem weightedSum_filter (coefficients : NameMap ℚ) :
    weightedSum (coefficients.filter fun x => !same x zero) assignment =
      weightedSum coefficients assignment := by
  refine sum_map_filter fun term _ hzero => ?_
  have hzero : term.2 = 0 := by simpa using hzero
  rw [hzero, zero_mul]

theorem reduced_filter (h : coefficients.Ordered) :
    Reduced (coefficients.filter fun x => !same x zero) := by
  refine ⟨h.filter _, fun term hmem => ?_⟩
  simpa using (List.mem_filter.1 hmem).2

theorem foldl_addCoefficient (assignment : String → ℚ) (factor : ℚ) (terms : List (String × ℚ))
    (h : coefficients.Ordered) :
    let total := terms.foldl
      (fun total (name, x) => Expression.addCoefficient total name (factor * x)) coefficients
    total.Ordered ∧ weightedSum total assignment = weightedSum coefficients assignment +
      factor * sum (terms.map fun term => term.2 * assignment term.1) := by
  induction terms generalizing coefficients with
  | nil => exact ⟨h, by simp [sum_nil_rat]⟩
  | cons term rest ih =>
    have hfirst : (Expression.addCoefficient coefficients term.1 (factor * term.2)).Ordered := h.insert
    obtain ⟨hordered, hvalue⟩ := ih hfirst
    refine ⟨hordered, hvalue.trans ?_⟩
    rw [Expression.addCoefficient, weightedSum_insert h, List.map_cons, sum_cons_rat, zero_rat]
    ring

namespace Expression

/-! ## The value of an expression -/

def value (a : Expression ℚ) (assignment : String → ℚ) : ℚ :=
  weightedSum a.coefficients assignment + a.constant

variable {a b e : Expression ℚ} {factor : ℚ} {expressions : List (Expression ℚ)}

theorem value_ofConstant (constant : ℚ) : (ofConstant constant).value assignment = constant := zero_add _

theorem value_ofVariable (name : String) : (ofVariable name).value assignment = assignment name := by
  simp [ofVariable, value, weightedSum, KeyMap.insert, KeyMap.place, KeyMap.empty, sum_cons_rat,
    sum_nil_rat]

theorem reduced_ofVariable (name : String) : Reduced (ofVariable (α := ℚ) name).coefficients := by
  refine ⟨reduced_empty.ordered.insert, fun term hmem => ?_⟩
  rw [List.mem_singleton.1 hmem]
  exact one_ne_zero

theorem value_of_isConstant (h : a.isConstant = true) : a.value assignment = a.constant := by
  rw [value, weightedSum, List.isEmpty_iff.1 h]
  exact zero_add _

theorem value_addScaled (h : Reduced a.coefficients) :
    (a.addScaled b factor).value assignment = a.value assignment + factor * b.value assignment := by
  obtain ⟨-, hvalue⟩ := foldl_addCoefficient assignment factor b.coefficients.toList h.ordered
  rw [addScaled, value, weightedSum_filter, hvalue, value, value, weightedSum, weightedSum]
  ring

theorem reduced_addScaled (h : Reduced a.coefficients) : Reduced (a.addScaled b factor).coefficients :=
  reduced_filter (foldl_addCoefficient 0 factor b.coefficients.toList h.ordered).1

theorem value_scale : (a.scale factor).value assignment = factor * a.value assignment := by
  rw [scale, value_addScaled reduced_empty, value_ofConstant, zero_rat, zero_add]

theorem reduced_scale : Reduced (a.scale factor).coefficients := reduced_addScaled reduced_empty

structure StandsFor (a : Expression ℚ) (assignment : String → ℚ) (x : ℚ) : Prop where
  reduced : Reduced a.coefficients
  value : a.value assignment = x

theorem foldl_addScaled {x : ℚ} (h : a.StandsFor assignment x) (factor : ℚ)
    (expressions : List (Expression ℚ)) :
    (expressions.foldl (fun total b => total.addScaled b factor) a).StandsFor assignment
      (x + factor * (expressions.map fun b => b.value assignment).sum) := by
  induction expressions generalizing a x with
  | nil => simpa using h
  | cons b rest ih =>
    have hfirst : (a.addScaled b factor).StandsFor assignment (x + factor * b.value assignment) :=
      ⟨reduced_addScaled h.reduced, by rw [value_addScaled h.reduced, h.value]⟩
    rw [List.foldl_cons, List.map_cons, List.sum_cons, mul_add, ← add_assoc]
    exact ih hfirst

theorem standsFor_ofConstant (constant : ℚ) : (ofConstant constant).StandsFor assignment constant :=
  ⟨reduced_empty, value_ofConstant constant⟩

theorem standsFor_scale (a : Expression ℚ) (factor : ℚ) :
    (a.scale factor).StandsFor assignment (factor * a.value assignment) :=
  ⟨reduced_scale, value_scale⟩

theorem standsFor_of_multiply? (h : a.multiply? b = some e) :
    e.StandsFor assignment (a.value assignment * b.value assignment) := by
  unfold multiply? at h
  split at h
  · rename_i hconstant
    obtain rfl := Option.some.inj h
    rw [value_of_isConstant hconstant]
    exact standsFor_scale b a.constant
  · split at h
    · rename_i hconstant
      obtain rfl := Option.some.inj h
      rw [value_of_isConstant hconstant, mul_comm]
      exact standsFor_scale a b.constant
    · cases h

theorem foldlM_multiply? {x : ℚ} (ha : a.StandsFor assignment x)
    (h : expressions.foldlM multiply? a = some e) :
    e.StandsFor assignment (x * (expressions.map fun b => b.value assignment).prod) := by
  induction expressions generalizing a x with
  | nil =>
    obtain rfl := Option.some.inj h
    simpa using ha
  | cons b rest ih =>
    rw [List.foldlM_cons] at h
    obtain ⟨product, hproduct, hrest⟩ := Option.bind_eq_some_iff.1 h
    rw [List.map_cons, List.prod_cons, ← mul_assoc, ← ha.value]
    exact ih (standsFor_of_multiply? hproduct) hrest

theorem standsFor_of_difference? (hreduced : ∀ a ∈ expressions, Reduced a.coefficients)
    (h : difference? expressions = some e) :
    e.StandsFor assignment (applied "minus" (expressions.map fun a => a.value assignment)) := by
  match expressions with
  | [] => cases h
  | [a] =>
    obtain rfl := Option.some.inj h
    have hscale : StandsFor _ assignment _ := standsFor_scale a (-1)
    rwa [neg_one_mul] at hscale
  | a :: b :: others =>
    obtain rfl := Option.some.inj h
    have ha : a.StandsFor assignment _ := ⟨hreduced a List.mem_cons_self, rfl⟩
    have hfold := foldl_addScaled ha (-1) (b :: others)
    rwa [neg_one_mul, ← sub_eq_add_neg] at hfold

/-- A function makes of expressions one that stands for what it makes of their values. -/
theorem standsFor_of_evaluate? {function : String}
    (hreduced : ∀ a ∈ expressions, Reduced a.coefficients)
    (h : evaluate? function expressions = some e) :
    e.StandsFor assignment (applied function (expressions.map fun a => a.value assignment)) := by
  unfold evaluate? at h
  split at h
  · rename_i hfunction
    obtain rfl := Option.some.inj h
    subst hfunction
    have hfold : StandsFor _ assignment _ := foldl_addScaled (standsFor_ofConstant 0) 1 expressions
    rwa [one_mul, zero_add] at hfold
  · split at h
    · rename_i hfunction
      subst hfunction
      exact standsFor_of_difference? hreduced h
    · split at h
      · rename_i hfunction
        have hprod : applied function = List.prod := by
          rcases hfunction with rfl | rfl <;> rfl
        have hfold : StandsFor _ assignment _ := foldlM_multiply? (standsFor_ofConstant 1) h
        rwa [one_mul, ← hprod] at hfold
      · cases h

theorem numeralValue_rat (numeral : Numeral) : (numeralValue numeral : ℚ) = numeral.value := by
  have hdecimal : (ofDecimal numeral.mantissa numeral.exponent : ℚ) =
      numeral.mantissa * 10 ^ numeral.exponent := by
    change (if 0 ≤ numeral.exponent then mkRat (numeral.mantissa * 10 ^ numeral.exponent.toNat : ℕ) 1
      else mkRat numeral.mantissa (10 ^ (-numeral.exponent).toNat)) = _
    split
    · rename_i hnonneg
      obtain ⟨n, hn⟩ := Int.eq_ofNat_of_zero_le hnonneg
      rw [hn, Rat.mkRat_eq_div]
      simp
    · rename_i hneg
      obtain ⟨n, hn⟩ := Int.eq_ofNat_of_zero_le (Int.neg_nonneg_of_nonpos (not_le.1 hneg).le)
      have hexponent : numeral.exponent = -(n : ℤ) := by omega
      rw [hexponent, Rat.mkRat_eq_div]
      simp [div_eq_mul_inv]
  rw [numeralValue, hdecimal, Numeral.value]
  cases numeral.negative <;> simp

mutual

theorem standsFor_of_ofTerm {t : Term} {e : Expression ℚ} (h : ofTerm t = .ok e) :
    e.StandsFor assignment ((arithmetic assignment).value t) := by
  match t with
  | .var name =>
    obtain rfl := Except.ok.inj h
    exact ⟨reduced_ofVariable name, value_ofVariable name⟩
  | .const name =>
    unfold ofTerm at h
    split at h
    · rename_i numeral hread
      obtain rfl := Except.ok.inj h
      have hvalue : (arithmetic assignment).value (.const name) = numeral.value := by
        simp [FirstOrder.Structure.value, arithmetic, hread]
      rw [hvalue, ← numeralValue_rat]
      exact standsFor_ofConstant _
    · cases h
  | .app function arguments =>
    unfold ofTerm at h
    split at h
    · cases h
    · rename_i expressions harguments
      split at h
      · rename_i hevaluate
        obtain rfl := Except.ok.inj h
        -- the arguments stand for their values by the recursion over lists of terms
        obtain ⟨hreduced, hvalues⟩ := standsFor_of_ofTerms harguments
        have hvalue : StandsFor _ assignment _ := standsFor_of_evaluate? hreduced hevaluate
        rw [hvalues] at hvalue
        exact hvalue
      · cases h

theorem standsFor_of_ofTerms {ts : List Term} {expressions : List (Expression ℚ)}
    (h : ofTerms ts = .ok expressions) :
    (∀ a ∈ expressions, Reduced a.coefficients) ∧
      expressions.map (fun a => a.value assignment) = (arithmetic assignment).values ts := by
  match ts with
  | [] =>
    obtain rfl := Except.ok.inj h
    exact ⟨List.forall_mem_nil _, rfl⟩
  | t :: ts =>
    unfold ofTerms at h
    split at h
    · cases h
    · rename_i hfirst
      split at h
      · cases h
      · rename_i hrest
        obtain rfl := Except.ok.inj h
        have hfirst := standsFor_of_ofTerm hfirst
        obtain ⟨hreduced, hvalues⟩ := standsFor_of_ofTerms hrest
        refine ⟨List.forall_mem_cons.2 ⟨hfirst.reduced, hreduced⟩, ?_⟩
        rw [List.map_cons, hfirst.value, hvalues, FirstOrder.Structure.values]

end

end Expression

end Linear

end Satisfiability
