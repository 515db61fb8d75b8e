import Mathlib.Data.Set.Function
import Satisfiability.Proofs.FirstOrder.Skeleton
import Satisfiability.Proofs.KeyMap
import Satisfiability.Proofs.Propositional.Folding

/-!
# From skeletons back to formulas

A formula is rebuilt from its skeleton and the parts that were replaced, and the parts are its
outermost ones, each behind one variable. Any other skeleton without truth values can be rebuilt
from any parts for its variables. What comes out is true where the skeleton is
(`Formula.rebuilding_exact`), although the connectives that first-order formulas lack are written
with others that name their sides twice.

A part may itself be made by a connective, and may be rebuilt elsewhere from other parts. So the
value of a formula over parts is a relation (`Formula.HasValue`): a formula has more than one if the
truth values of the parts do not go together.
-/

namespace Satisfiability.FirstOrder

open Propositional (Connective)

/-! ## Skeletons of formulas -/

namespace Skeletons

variable {state : Skeletons}

structure Restores (state : Skeletons) (formula : Formula)
    (result : Propositional.Formula × Skeletons) : Prop where
  names : ∀ name, name ∈ result.2.replaced.map Prod.snd ↔
    name ∈ state.replaced.map Prod.snd ∨ name ∈ result.1.occurrences
  rebuilt : ∀ formulaFor : String → Option Formula,
    (∀ pair ∈ result.2.replaced, formulaFor pair.2 = some pair.1) →
      Formula.ofSkeleton? formulaFor result.1 = some formula

theorem variableFor_restores (state : Skeletons) (formula : Formula) :
    state.Restores formula (.var (state.variableFor formula).1, (state.variableFor formula).2) := by
  rcases state.variableFor_cases formula with ⟨name, hmem, heq⟩ | ⟨-, heq⟩
  · rw [heq]
    refine ⟨fun other => ?_, fun formulaFor hparts => hparts _ hmem⟩
    have hname : other ∈ [name] → other ∈ state.replaced.map Prod.snd := fun h =>
      List.mem_singleton.1 h ▸ List.mem_map_of_mem hmem
    exact (or_iff_left_of_imp hname).symm
  · rw [heq]
    refine ⟨fun other => ?_, fun formulaFor hparts => ?_⟩
    · rw [List.map_append, List.mem_append]
      rfl
    · exact hparts _ (List.mem_append_right _ List.mem_cons_self)

theorem Restores.join {first second formula : Formula} {connective : Connective}
    {result result' : Propositional.Formula × Skeletons} (hfirst : state.Restores first result)
    (hsecond : result.2.Restores second result') (hgrows : result.2.replaced <+: result'.2.replaced)
    (hcombine : Formula.combine connective first second = formula) :
    state.Restores formula (.binary connective result.1 result'.1, result'.2) := by
  refine ⟨fun name => ?_, fun formulaFor hparts => ?_⟩
  · rw [hsecond.names, hfirst.names, Propositional.Formula.occurrences, List.mem_append, or_assoc]
  · -- what was replaced in the first part still is
    have hparts' : ∀ pair ∈ result.2.replaced, formulaFor pair.2 = some pair.1 :=
      fun pair hmem => hparts pair (hgrows.subset hmem)
    rw [Formula.ofSkeleton?, hfirst.rebuilt formulaFor hparts', hsecond.rebuilt formulaFor hparts,
      ← hcombine]

theorem skeletonOf_restores (formula : Formula) (h : state.Distinct) :
    state.Restores formula (state.skeletonOf formula) := by
  induction formula generalizing state with
  -- what is replaced as a whole, and then the connectives
  | equality | relation | forAll | exist => exact variableFor_restores state _
  | not inner ih =>
    obtain ⟨hnames, hrebuilt⟩ := ih h
    refine ⟨hnames, fun formulaFor hparts => ?_⟩
    have hinner := hrebuilt formulaFor hparts
    show (Formula.ofSkeleton? formulaFor (state.skeletonOf inner).1).map Formula.not = _
    rw [hinner]
    rfl
  | and first second ihFirst ihSecond | or first second ihFirst ihSecond
  | implies first second ihFirst ihSecond =>
    have hdistinct := (skeletonOf_spec first h).distinct
    exact (ihFirst h).join (ihSecond hdistinct) (skeletonOf_spec second hdistinct).grows rfl

end Skeletons

def partsOf (replaced : List (Formula × String)) : NameMap Formula :=
  KeyMap.ofList (replaced.map Prod.swap)

theorem find?_partsOf {replaced : List (Formula × String)} (hnames : (replaced.map Prod.snd).Nodup)
    {name : String} {part : Formula} :
    (partsOf replaced).find? name = some part ↔ (part, name) ∈ replaced := by
  have hkeys : ((replaced.map Prod.swap).map Prod.fst).Nodup := by
    rw [List.map_map]
    exact hnames
  rw [partsOf, KeyMap.find?_ofList_eq_some hkeys]
  constructor
  · intro h
    obtain ⟨⟨other, name'⟩, hmem, heq⟩ := List.mem_map.1 h
    cases heq
    exact hmem
  · exact fun h => List.mem_map.2 ⟨(part, name), h, rfl⟩

namespace Formula

variable {formula first second : Formula} {a b value : Bool}

/-- The formula taken apart: it can be rebuilt, and each of its outermost parts is behind one of the
variables of the skeleton. -/
structure Decomposition (formula : Formula) (skeleton : Propositional.Formula) (parts : NameMap Formula) :
    Prop where
  rebuilt : ofSkeleton? parts.find? skeleton = some formula
  defined : ∀ name, (parts.find? name).isSome ↔ name ∈ skeleton.variableNames
  bijective : Set.BijOn parts.find? {name | name ∈ skeleton.variableNames}
    (some '' {part | part ∈ formula.outermost})

theorem skeleton_decomposition (formula : Formula) (names : FreshNames) :
    formula.Decomposition (formula.skeleton names).1 (partsOf (formula.skeleton names).2.1) := by
  let skeleton := (formula.skeleton names).1
  let parts := partsOf (formula.skeleton names).2.1
  have hskeleton : formula.IsSkeleton skeleton (formula.skeleton names).2.1 := skeleton_spec rfl
  obtain ⟨hvariables, hrebuilt⟩ := @Skeletons.skeletonOf_restores { names } formula
    ⟨List.nodup_nil, List.nodup_nil, List.forall_mem_nil _⟩
  have hfind : ∀ name part, parts.find? name = some part ↔
      (part, name) ∈ (formula.skeleton names).2.1 := fun _ _ => find?_partsOf hskeleton.names
  -- the variables of the skeleton and the outermost parts are the two columns of one list
  have hnames : ∀ name, name ∈ skeleton.variableNames ↔ ∃ part, parts.find? name = some part := by
    intro name
    have hvariable : name ∈ (formula.skeleton names).2.1.map Prod.snd ↔ name ∈ skeleton.occurrences :=
      (hvariables name).trans (or_iff_right List.not_mem_nil)
    rw [Propositional.Formula.variableNames, mem_ascending, ← hvariable, List.mem_map]
    constructor
    · rintro ⟨⟨part, _⟩, hmem, rfl⟩
      exact ⟨part, (hfind _ _).2 hmem⟩
    · rintro ⟨part, hpart⟩
      exact ⟨(part, name), (hfind _ _).1 hpart, rfl⟩
  have houtermost : ∀ part, part ∈ formula.outermost ↔ ∃ name, parts.find? name = some part := by
    intro part
    rw [← hskeleton.mem_iff, List.mem_map]
    constructor
    · rintro ⟨⟨_, name⟩, hmem, rfl⟩
      exact ⟨name, (hfind _ _).2 hmem⟩
    · rintro ⟨name, hpart⟩
      exact ⟨(part, name), (hfind _ _).1 hpart, rfl⟩
  refine ⟨hrebuilt _ fun pair hmem => (hfind _ _).2 hmem, fun name => ?_, ?_, ?_, ?_⟩
  · exact Option.isSome_iff_exists.trans (hnames name).symm
  · intro name hname
    obtain ⟨part, hpart⟩ := (hnames name).1 hname
    exact ⟨part, (houtermost part).2 ⟨name, hpart⟩, hpart.symm⟩
  · intro name hname other _ heq
    obtain ⟨part, hpart⟩ := (hnames name).1 hname
    have hother : parts.find? other = some part := heq ▸ hpart
    exact KeyMap.eq_of_mem hskeleton.formulas ((hfind _ _).1 hpart) ((hfind _ _).1 hother)
  · rintro _ ⟨part, hpart, rfl⟩
    obtain ⟨name, hname⟩ := (houtermost part).1 hpart
    exact ⟨name, (hnames name).2 ⟨part, hname⟩, hname⟩

/-! ## Values over parts -/

/-- The formula has this value where the parts have their truth values, whatever they are made of,
and the connectives combine them. -/
inductive HasValue (isPart : Formula → Prop) (truth : Formula → Bool) : Formula → Bool → Prop
  | part {formula : Formula} (h : isPart formula) : HasValue isPart truth formula (truth formula)
  | not {inner : Formula} {a : Bool} (h : HasValue isPart truth inner a) :
    HasValue isPart truth (not inner) !a
  | and {first second : Formula} {a b : Bool} (hfirst : HasValue isPart truth first a)
    (hsecond : HasValue isPart truth second b) : HasValue isPart truth (and first second) (a && b)
  | or {first second : Formula} {a b : Bool} (hfirst : HasValue isPart truth first a)
    (hsecond : HasValue isPart truth second b) : HasValue isPart truth (or first second) (a || b)
  | implies {first second : Formula} {a b : Bool} (hfirst : HasValue isPart truth first a)
    (hsecond : HasValue isPart truth second b) :
    HasValue isPart truth (implies first second) (!a || b)

variable {isPart : Formula → Prop} {truth : Formula → Bool}

theorem HasValue.equivalence (hfirst : first.HasValue isPart truth a)
    (hsecond : second.HasValue isPart truth b) :
    (Formula.equivalence first second).HasValue isPart truth (a == b) := by
  have hboth := (hfirst.implies hsecond).and (hsecond.implies hfirst)
  rwa [show ((!a || b) && (!b || a)) = (a == b) by cases a <;> cases b <;> rfl] at hboth

theorem HasValue.combine (connective : Connective) (hfirst : first.HasValue isPart truth a)
    (hsecond : second.HasValue isPart truth b) :
    (Formula.combine connective first second).HasValue isPart truth (connective.apply a b) := by
  cases connective with
  | and => exact hfirst.and hsecond
  | or => exact hfirst.or hsecond
  | implies => exact hfirst.implies hsecond
  | iff => exact hfirst.equivalence hsecond
  | xor => exact (hfirst.equivalence hsecond).not
  | nand => exact (hfirst.and hsecond).not
  | nor => exact (hfirst.or hsecond).not

/-- Where the parts have the truth values that their own parts give them, so does the formula. -/
theorem HasValue.holds_iff (h : formula.HasValue isPart truth value) {outer : Formula → Prop}
    (hparts : ∀ part, isPart part → (truth part = true ↔ part.Holds outer)) :
    value = true ↔ formula.Holds outer := by
  induction h with
  | part hpart => exact hparts _ hpart
  | not _ ih =>
    rw [Holds, ← ih, Bool.not_eq_true', Bool.not_eq_true]
  | and _ _ ihFirst ihSecond => rw [Holds, ← ihFirst, ← ihSecond, Bool.and_eq_true]
  | or _ _ ihFirst ihSecond => rw [Holds, ← ihFirst, ← ihSecond, Bool.or_eq_true]
  | @implies _ _ a b _ _ ihFirst ihSecond =>
    rw [Holds, ← ihFirst, ← ihSecond]
    cases a <;> simp

/-! ## Rebuilt formulas -/

variable {skeleton : Propositional.Formula} {formulaFor : String → Option Formula}

theorem ofSkeleton?_isSome_iff : (ofSkeleton? formulaFor skeleton).isSome ↔
    skeleton.truthFree = true ∧ ∀ name ∈ skeleton.occurrences, (formulaFor name).isSome := by
  induction skeleton with
  | truth value => simp [ofSkeleton?, Propositional.Formula.truthFree]
  | var name =>
    simp [ofSkeleton?, Propositional.Formula.truthFree, Propositional.Formula.occurrences]
  | not inner ih =>
    rw [ofSkeleton?, Option.isSome_map, ih]
    rfl
  | binary connective first second ihFirst ihSecond =>
    have hboth : (ofSkeleton? formulaFor (.binary connective first second)).isSome ↔
        (ofSkeleton? formulaFor first).isSome ∧ (ofSkeleton? formulaFor second).isSome := by
      rw [ofSkeleton?]
      cases ofSkeleton? formulaFor first <;> cases ofSkeleton? formulaFor second <;> simp
    rw [hboth, ihFirst, ihSecond, Propositional.Formula.truthFree, Bool.and_eq_true,
      Propositional.Formula.occurrences, List.forall_mem_append]
    exact and_and_and_comm

theorem hasValue_of_ofSkeleton? {rebuilt : Formula}
    (h : ofSkeleton? formulaFor skeleton = some rebuilt) (truth : Formula → Bool) :
    ∃ value, skeleton.evaluate (fun name => (formulaFor name).map truth) = some value ∧
      rebuilt.HasValue (fun part => ∃ name, formulaFor name = some part) truth value := by
  -- a variable has the value of its part, and connectives are passed on to `combine`
  induction skeleton generalizing rebuilt with
  | truth value => cases h
  | var name =>
    have hpart : formulaFor name = some rebuilt := h
    refine ⟨truth rebuilt, ?_, .part ⟨name, hpart⟩⟩
    rw [Propositional.Formula.evaluate, hpart, Option.map_some]
  | not inner ih =>
    obtain ⟨part, hpart, rfl⟩ := Option.map_eq_some_iff.1 h
    obtain ⟨value, hvalue, hhas⟩ := ih hpart
    refine ⟨!value, ?_, hhas.not⟩
    rw [Propositional.Formula.evaluate, hvalue, Option.map_some]
  | binary connective first second ihFirst ihSecond =>
    unfold ofSkeleton? at h
    split at h
    · rename_i left right hleft hright
      cases h
      obtain ⟨a, ha, hhas⟩ := ihFirst hleft
      obtain ⟨b, hb, hhas'⟩ := ihSecond hright
      refine ⟨connective.apply a b, ?_, hhas.combine connective hhas'⟩
      rw [Propositional.Formula.evaluate, ha, hb]
    · cases h

/-- Formulas are rebuilt from their skeletons, whose variables stand for their outermost parts one
by one. A formula is rebuilt from any skeleton without truth values and any parts for its variables,
with the value of the skeleton for any truth values of the parts. -/
theorem rebuilding_exact :
    (∀ (formula : Formula) (names : FreshNames),
      formula.Decomposition (formula.skeleton names).1 (partsOf (formula.skeleton names).2.1)) ∧
    ∀ (skeleton : Propositional.Formula) (parts : NameMap Formula), skeleton.truthFree = true →
      (∀ name ∈ skeleton.variableNames, (parts.find? name).isSome) →
      ∃ rebuilt, ofSkeleton? parts.find? skeleton = some rebuilt ∧
        ∀ truth : Formula → Bool, ∃ value,
          skeleton.evaluate (fun name => (parts.find? name).map truth) = some value ∧
          rebuilt.HasValue (fun part => ∃ name, parts.find? name = some part) truth value ∧
          ∀ outer : Formula → Prop,
            (∀ name part, parts.find? name = some part → (truth part = true ↔ part.Holds outer)) →
              (value = true ↔ rebuilt.Holds outer) := by
  refine ⟨skeleton_decomposition, fun skeleton parts hfree hdefined => ?_⟩
  have hsome : (ofSkeleton? parts.find? skeleton).isSome := ofSkeleton?_isSome_iff.2
    ⟨hfree, fun name hname => hdefined name (mem_ascending.2 hname)⟩
  obtain ⟨rebuilt, hrebuilt⟩ := Option.isSome_iff_exists.1 hsome
  refine ⟨rebuilt, hrebuilt, fun truth => ?_⟩
  obtain ⟨value, hvalue, hhas⟩ := hasValue_of_ofSkeleton? hrebuilt truth
  refine ⟨value, hvalue, hhas, fun outer houter => hhas.holds_iff ?_⟩
  rintro part ⟨name, hname⟩
  exact houter name part hname

/-- A skeleton with all connectives: `((p+q)<->((q-|r)-&(r->(p|(q&~r)))))`. -/
def allConnectives : Propositional.Formula :=
  .binary .iff (.binary .xor (.var "p") (.var "q"))
    (.binary .nand (.binary .nor (.var "q") (.var "r"))
      (.binary .implies (.var "r")
        (.binary .or (.var "p") (.binary .and (.var "q") (.not (.var "r"))))))

def opposedParts : NameMap Formula :=
  KeyMap.ofList [("p", equality (.var "x") (.var "y")), ("q", not (equality (.var "x") (.var "y"))),
    ("r", forAll "x" (relation "R" [.var "x"]))]

def opposedTruth (part : Formula) : Bool := part != not (equality (.var "x") (.var "y"))

theorem rebuilding_exact_opposed : allConnectives.truthFree = true ∧
    (∀ name ∈ allConnectives.variableNames, (opposedParts.find? name).isSome) ∧
    (∀ name part, opposedParts.find? name = some part →
      (opposedTruth part = true ↔ part.Holds (opposedTruth · = true))) ∧
    ∃ rebuilt value, ofSkeleton? opposedParts.find? allConnectives = some rebuilt ∧
      allConnectives.evaluate (fun name => (opposedParts.find? name).map opposedTruth) = some value ∧
      rebuilt.HasValue (fun part => ∃ name, opposedParts.find? name = some part) opposedTruth value ∧
      (value = true ↔ rebuilt.Holds (opposedTruth · = true)) := by
  have hfree : allConnectives.truthFree = true := rfl
  have hdefined : ∀ name ∈ allConnectives.variableNames, (opposedParts.find? name).isSome := by
    decide +kernel
  have hagree : ∀ name part, opposedParts.find? name = some part →
      (opposedTruth part = true ↔ part.Holds (opposedTruth · = true)) := by
    intro name part hfind
    have hmem := KeyMap.mem_of_find?_ofList hfind
    simp only [List.mem_cons, Prod.mk.injEq, List.not_mem_nil, or_false] at hmem
    rcases hmem with ⟨-, rfl⟩ | ⟨-, rfl⟩ | ⟨-, rfl⟩
    · exact Iff.rfl
    · simp [Holds, opposedTruth]
    · exact Iff.rfl
  obtain ⟨rebuilt, hrebuilt, hvalue⟩ := rebuilding_exact.2 allConnectives opposedParts hfree hdefined
  obtain ⟨value, hevaluate, hhas, hholds⟩ := hvalue opposedTruth
  exact ⟨hfree, hdefined, hagree, rebuilt, value, hrebuilt, hevaluate, hhas, hholds _ hagree⟩

end Formula

end Satisfiability.FirstOrder
