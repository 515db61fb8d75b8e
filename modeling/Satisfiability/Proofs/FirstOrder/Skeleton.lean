import Mathlib.Data.List.Nodup
import Satisfiability.FirstOrder.Skeleton
import Satisfiability.Proofs.FirstOrder.Semantics
import Satisfiability.Proofs.FreshNames
import Satisfiability.Proofs.Propositional.Encoding

/-!
# What a skeleton says

The formulas replaced in a skeleton are the outermost equalities, relations and quantified
subformulas, each by a variable of its own. Where the variables have the truth values of what they
replace, the skeleton has the truth value of the formula (`Formula.skeleton_spec`).
-/

namespace Satisfiability.FirstOrder

namespace Skeletons

variable {state : Skeletons}

/-- No formula has two variables, and no variable replaces two formulas. -/
structure Distinct (state : Skeletons) : Prop where
  formulas : (state.replaced.map Prod.fst).Nodup
  names : (state.replaced.map Prod.snd).Nodup
  drawn : ∀ pair ∈ state.replaced, state.names.Drawn pair.2

structure Skeletal (state : Skeletons) (formula : Formula)
    (result : Propositional.Formula × Skeletons) : Prop where
  distinct : result.2.Distinct
  grows : state.replaced <+: result.2.replaced
  mem_iff : ∀ part, part ∈ result.2.replaced.map Prod.fst ↔
    part ∈ state.replaced.map Prod.fst ∨ part ∈ formula.outermost
  value : ∀ (valuation : String → Bool) (truth : Formula → Prop),
    (∀ pair ∈ result.2.replaced, valuation pair.2 = true ↔ truth pair.1) →
      (result.1.value valuation = true ↔ formula.Holds truth)

theorem variableFor_cases (state : Skeletons) (formula : Formula) :
    (∃ name, (formula, name) ∈ state.replaced ∧ state.variableFor formula = (name, state)) ∨
      (formula ∉ state.replaced.map Prod.fst ∧ state.variableFor formula =
        (state.names.fresh.1,
          ⟨state.names.fresh.2, state.replaced ++ [(formula, state.names.fresh.1)]⟩)) := by
  unfold variableFor
  cases hlookup : state.replaced.lookup formula with
  | some name =>
    left
    obtain ⟨front, back, hreplaced, -⟩ := List.lookup_eq_some_iff.1 hlookup
    have hmem : (formula, name) ∈ state.replaced := by
      rw [hreplaced]
      exact List.mem_append_right _ List.mem_cons_self
    exact ⟨name, hmem, rfl⟩
  | none =>
    right
    have hnew : formula ∉ state.replaced.map Prod.fst := by
      rw [List.mem_map]
      rintro ⟨pair, hmem, rfl⟩
      simpa using List.lookup_eq_none_iff.1 hlookup pair hmem
    exact ⟨hnew, rfl⟩

/-- A formula that is replaced as a whole gets the variable that it has, or a new one. -/
theorem variableFor_spec (h : state.Distinct) {formula : Formula}
    (houtermost : formula.outermost = [formula]) (hholds : ∀ truth, formula.Holds truth = truth formula) :
    state.Skeletal formula (.var (state.variableFor formula).1, (state.variableFor formula).2) := by
  rcases state.variableFor_cases formula with ⟨name, hmem, heq⟩ | ⟨hnew, heq⟩
  · -- the formula was replaced before
    rw [heq]
    refine ⟨h, List.prefix_refl _, fun part => ?_, fun valuation truth htruth => ?_⟩
    · rw [houtermost, List.mem_singleton]
      refine ⟨Or.inl, fun hpart => hpart.elim id fun heq => ?_⟩
      exact heq ▸ List.mem_map_of_mem hmem
    · rw [hholds]
      exact htruth _ hmem
  · -- the formula is new, and so is the name drawn for it
    rw [heq]
    have hfresh : state.names.fresh.1 ∉ state.replaced.map Prod.snd := by
      rw [List.mem_map]
      rintro ⟨pair, hmem, heq⟩
      exact state.names.not_drawn_fresh (heq ▸ h.drawn pair hmem)
    refine ⟨⟨?_, ?_, fun pair hmem => ?_⟩, List.prefix_append _ _, fun part => ?_,
      fun valuation truth htruth => ?_⟩
    · rw [List.map_append, List.map_singleton, ← List.concat_eq_append]
      exact h.formulas.concat hnew
    · rw [List.map_append, List.map_singleton, ← List.concat_eq_append]
      exact h.names.concat hfresh
    · rcases List.mem_append.1 hmem with hmem | hmem
      · exact (h.drawn pair hmem).fresh
      · rw [List.mem_singleton.1 hmem]
        exact state.names.drawn_fresh
    · rw [houtermost, List.map_append, List.mem_append]
      rfl
    · rw [hholds]
      exact htruth _ (List.mem_append_right _ List.mem_cons_self)

/-- The parts of one formula are replaced after those of another, and the results are joined. -/
theorem Skeletal.join {first second formula : Formula} {connective : Propositional.Connective}
    {result result' : Propositional.Formula × Skeletons} (hfirst : state.Skeletal first result)
    (hsecond : result.2.Skeletal second result')
    (houtermost : formula.outermost = first.outermost ++ second.outermost)
    (hholds : ∀ (truth : Formula → Prop) (a b : Bool), (a = true ↔ first.Holds truth) →
      (b = true ↔ second.Holds truth) → (connective.apply a b = true ↔ formula.Holds truth)) :
    state.Skeletal formula (.binary connective result.1 result'.1, result'.2) := by
  refine ⟨hsecond.distinct, hfirst.grows.trans hsecond.grows, fun part => ?_,
    fun valuation truth htruth => hholds truth _ _ ?_ (hsecond.value valuation truth htruth)⟩
  · rw [hsecond.mem_iff, hfirst.mem_iff, houtermost, List.mem_append, or_assoc]
  · exact hfirst.value valuation truth fun pair hmem => htruth pair (hsecond.grows.subset hmem)

theorem skeletonOf_spec (formula : Formula) (h : state.Distinct) :
    state.Skeletal formula (state.skeletonOf formula) := by
  induction formula generalizing state with
  | equality | relation | forAll | exist => exact variableFor_spec h rfl fun _ => rfl
  | not inner ih =>
    obtain ⟨hdistinct, hgrows, hmem, hvalue⟩ := ih h
    refine ⟨hdistinct, hgrows, hmem, fun valuation truth htruth => ?_⟩
    have hinner := hvalue valuation truth htruth
    simp only [skeletonOf, Propositional.Formula.value, Formula.Holds, ← hinner, Bool.not_eq_true',
      Bool.not_eq_true]
  | and first second ihFirst ihSecond =>
    refine (ihFirst h).join (ihSecond (ihFirst h).distinct) rfl fun truth a b ha hb => ?_
    rw [Propositional.Connective.apply, Bool.and_eq_true, ha, hb, Formula.Holds]
  | or first second ihFirst ihSecond =>
    refine (ihFirst h).join (ihSecond (ihFirst h).distinct) rfl fun truth a b ha hb => ?_
    rw [Propositional.Connective.apply, Bool.or_eq_true, ha, hb, Formula.Holds]
  | implies first second ihFirst ihSecond =>
    refine (ihFirst h).join (ihSecond (ihFirst h).distinct) rfl fun truth a b ha hb => ?_
    rw [Propositional.Connective.apply, Formula.Holds, ← ha, ← hb]
    cases a <;> simp

end Skeletons

/-- A formula has a skeleton in which its outermost parts are replaced, each by a variable of its
own. -/
structure Formula.IsSkeleton (formula : Formula) (skeleton : Propositional.Formula)
    (replaced : List (Formula × String)) : Prop where
  formulas : (replaced.map Prod.fst).Nodup
  names : (replaced.map Prod.snd).Nodup
  mem_iff : ∀ part, part ∈ replaced.map Prod.fst ↔ part ∈ formula.outermost
  value : ∀ (valuation : String → Bool) (truth : Formula → Prop),
    (∀ pair ∈ replaced, valuation pair.2 = true ↔ truth pair.1) →
      (skeleton.value valuation = true ↔ formula.Holds truth)

theorem Formula.skeleton_spec {formula : Formula} {skeleton : Propositional.Formula}
    {replaced : List (Formula × String)} {names names' : FreshNames}
    (h : formula.skeleton names = (skeleton, replaced, names')) :
    formula.IsSkeleton skeleton replaced := by
  obtain ⟨⟨hformulas, hnames, _⟩, _, hmem, hvalue⟩ := @Skeletons.skeletonOf_spec
    { names } formula ⟨List.nodup_nil, List.nodup_nil, List.forall_mem_nil _⟩
  cases h
  exact ⟨hformulas, hnames, fun part => by simpa using hmem part, hvalue⟩

end Satisfiability.FirstOrder
