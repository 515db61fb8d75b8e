import Mathlib.Data.List.Forall2
import Satisfiability.Proofs.Equality.Closure
import Satisfiability.Proofs.Equality.Interpretation
import Satisfiability.Proofs.FirstOrder.Reading

/-!
# What nodes denote in a structure

In a structure a node denotes an element of the domain or, if it is the node of a relation, a truth
value; the node of truth denotes truth (`Denotes`). The first letter of a symbol tells which of
these it is, so no node denotes two things (`Denotes.unique`), and to denote the same is a
congruence (`isCongruence_agree`). An equality or a relation is true in the structure exactly if its
two sides denote the same (`models_iff_agree`).
-/

namespace Satisfiability.FirstOrder

/-! ## Kinds of names -/

section kinds

variable {name : String} {first second : Char → Bool}

theorem isNameWith_eq_false (hdisjoint : ∀ c, first c = true → ¬ second c = true)
    (h : isNameWith first name = true) : isNameWith second name = false := by
  unfold isNameWith at h ⊢
  split at h
  · exact absurd h (by simp)
  · rename_i c rest heq
    rw [Bool.and_eq_true] at h
    rw [Bool.eq_false_iff.2 (hdisjoint c h.1), Bool.false_and]

theorem isVariable_of_isConstant (h : isConstant name = true) : isVariable name = false := by
  rw [isConstant, Bool.or_eq_true, beq_iff_eq] at h
  rcases h with rfl | h
  · rfl
  · apply isNameWith_eq_false _ h
    intro c hconstant hvariable
    rw [beginsConstant_iff] at hconstant
    rw [beginsVariable_iff] at hvariable
    omega

/-- A name that begins with none of the letters of constants, and is not the lone underscore, is no
constant. -/
theorem isConstant_eq_false (hdisjoint : ∀ c, first c = true → ¬ beginsConstant c = true)
    (hunderscore : isNameWith first "_" = false) (h : isNameWith first name = true) :
    isConstant name = false := by
  have hne : name ≠ "_" := by
    rintro rfl
    rw [hunderscore] at h
    exact absurd h (by simp)
  rw [isConstant, beq_eq_false_iff_ne.2 hne, isNameWith_eq_false hdisjoint h, Bool.or_false]

theorem kinds_of_isFunction (h : isFunction name = true) :
    isVariable name = false ∧ isConstant name = false := by
  constructor
  · apply isNameWith_eq_false _ h
    intro c hfunction hvariable
    rw [beginsFunction_iff] at hfunction
    rw [beginsVariable_iff] at hvariable
    omega
  · apply isConstant_eq_false _ rfl h
    intro c hfunction hconstant
    rw [beginsFunction_iff] at hfunction
    rw [beginsConstant_iff] at hconstant
    omega

theorem kinds_of_isRelation (h : isRelation name = true) :
    isVariable name = false ∧ isConstant name = false ∧ isFunction name = false := by
  refine ⟨?_, ?_, ?_⟩
  · apply isNameWith_eq_false _ h
    intro c hrelation hvariable
    rw [beginsRelation_iff] at hrelation
    rw [beginsVariable_iff] at hvariable
    omega
  · apply isConstant_eq_false _ rfl h
    intro c hrelation hconstant
    rw [beginsRelation_iff] at hrelation
    rw [beginsConstant_iff] at hconstant
    omega
  · apply isNameWith_eq_false _ h
    intro c hrelation hfunction
    rw [beginsRelation_iff] at hrelation
    rw [beginsFunction_iff] at hfunction
    omega

end kinds

/-! ## Values of symbols -/

namespace Structure

variable {D : Type} (M : Structure D) {name : String}

/-- The element of the domain that a value is. No argument of a well-named term or relation has a
truth value for its value. -/
def element : D ⊕ Prop → D
  | .inl d => d
  | .inr _ => M.var ""

def apply (symbol : String) (values : List (D ⊕ Prop)) : D ⊕ Prop :=
  if isVariable symbol then .inl (M.var symbol)
  else if isConstant symbol then .inl (M.const symbol)
  else if isFunction symbol then .inl (M.app symbol (values.map M.element))
  else if isRelation symbol then .inr (M.rel symbol (values.map M.element))
  else .inr True

theorem map_element (ds : List D) : (ds.map Sum.inl).map M.element = ds := by
  rw [List.map_map]
  exact List.map_id ds

theorem apply_variable (h : isVariable name = true) : M.apply name [] = .inl (M.var name) :=
  if_pos h

theorem apply_constant (h : isConstant name = true) : M.apply name [] = .inl (M.const name) := by
  simp only [apply, isVariable_of_isConstant h, h, Bool.false_eq_true, if_false, if_true]

theorem apply_function (h : isFunction name = true) (ds : List D) :
    M.apply name (ds.map .inl) = .inl (M.app name ds) := by
  obtain ⟨hvariable, hconstant⟩ := kinds_of_isFunction h
  simp only [apply, hvariable, hconstant, h, Bool.false_eq_true, if_false, if_true, map_element]

theorem apply_relation (h : isRelation name = true) (ds : List D) :
    M.apply name (ds.map .inl) = .inr (M.rel name ds) := by
  obtain ⟨hvariable, hconstant, hfunction⟩ := kinds_of_isRelation h
  simp only [apply, hvariable, hconstant, hfunction, h, Bool.false_eq_true, if_false, if_true,
    map_element]

theorem apply_truth : M.apply Equality.truthSymbol [] = .inr True := rfl

end Structure

end Satisfiability.FirstOrder

namespace Satisfiability.Equality.TermClasses

open Satisfiability.FirstOrder (Term Formula Structure)
open Satisfiability.FirstOrder.Term (AllWellNamed)

variable {D : Type} {classes classes' : TermClasses} {a b id : NodeId} {v w : D ⊕ Prop}
  {M : Structure D}

/-! ## Values of nodes -/

inductive Denotes (classes : TermClasses) (M : Structure D) : NodeId → D ⊕ Prop → Prop
  | node {id : NodeId} {symbol : String} {arguments : List NodeId} {values : List (D ⊕ Prop)}
    (hterm : classes.term? id = some (symbol, arguments)) (hlength : arguments.length = values.length)
    (harguments : ∀ pair ∈ arguments.zip values, Denotes classes M pair.1 pair.2) :
    Denotes classes M id (M.apply symbol values)

def Agree (classes : TermClasses) (M : Structure D) (a b : NodeId) : Prop :=
  ∀ v, classes.Denotes M a v ↔ classes.Denotes M b v

theorem Denotes.of_forall₂ {symbol : String} {arguments : List NodeId} {values : List (D ⊕ Prop)}
    (hterm : classes.term? id = some (symbol, arguments))
    (h : List.Forall₂ (classes.Denotes M) arguments values) :
    classes.Denotes M id (M.apply symbol values) := by
  obtain ⟨hlength, harguments⟩ := List.forall₂_iff_zip.1 h
  exact .node hterm hlength fun _ hmem => harguments hmem

theorem Denotes.unique (h : classes.Denotes M a v) (h' : classes.Denotes M a w) : v = w := by
  induction h generalizing w with
  | @node a symbol arguments values hterm hlength _ ih =>
    cases h' with
    | @node _ _ _ values' hterm' hlength' harguments' =>
      cases hterm.symm.trans hterm'
      -- the values of the arguments are the same at each place
      have hvalues : values = values' := by
        apply List.ext_getElem (hlength.symm.trans hlength')
        intro n hn hn'
        have hn'' : n < arguments.length := by omega
        have hmem : (arguments[n], values[n]) ∈ arguments.zip values :=
          List.mem_iff_getElem.2 ⟨n, by simp [hn, hn''], by simp⟩
        have hmem' : (arguments[n], values'[n]) ∈ arguments.zip values' :=
          List.mem_iff_getElem.2 ⟨n, by simp [hn', hn''], by simp⟩
        exact ih _ hmem (harguments' _ hmem')
      rw [hvalues]

theorem agree_iff (ha : classes.Denotes M a v) (hb : classes.Denotes M b w) :
    classes.Agree M a b ↔ v = w := by
  constructor
  · intro h
    exact ((h v).1 ha).unique hb
  · rintro rfl u
    exact ⟨fun hu => ha.unique hu ▸ hb, fun hu => hb.unique hu ▸ ha⟩

theorem Denotes.congruent {symbol : String} {xs ys : List NodeId}
    (ha : classes.term? a = some (symbol, xs)) (hb : classes.term? b = some (symbol, ys))
    (hxy : List.Forall₂ (classes.Agree M) xs ys) (h : classes.Denotes M a v) :
    classes.Denotes M b v := by
  cases h with
  | @node _ _ _ values hterm hlength harguments =>
    cases ha.symm.trans hterm
    apply Denotes.of_forall₂ hb
    have hvalues := List.forall₂_iff_zip.2 ⟨hlength, fun hmem => harguments _ hmem⟩
    clear ha hterm hb hlength harguments
    -- along the arguments, whose values are the same
    induction hxy generalizing values with
    | nil =>
      cases hvalues
      exact .nil
    | cons hfirst _ ih =>
      cases hvalues with
      | cons hvalue hrest => exact .cons ((hfirst _).1 hvalue) (ih hrest)

/-- To denote the same is an equivalence, and it is closed under congruence. -/
theorem isCongruence_agree (classes : TermClasses) (M : Structure D) :
    classes.IsCongruence (classes.Agree M) := by
  refine ⟨⟨fun _ _ => Iff.rfl, fun h v => (h v).symm, fun h h' v => (h v).trans (h' v)⟩, ?_⟩
  intro a b symbol xs ys ha hb hlength harguments
  have hxy : List.Forall₂ (classes.Agree M) xs ys :=
    List.forall₂_iff_zip.2 ⟨hlength, fun hmem => harguments _ hmem⟩
  have hyx : List.Forall₂ (classes.Agree M) ys xs :=
    hxy.flip.imp fun _ _ h v => (h v).symm
  exact fun v => ⟨Denotes.congruent ha hb hxy, Denotes.congruent hb ha hyx⟩

/-! ## The two sides of an atom -/

mutual

theorem denotes_value {id : NodeId} (t : Term) (hnamed : t.WellNamed)
    (hid : classes.idOf? t = some id) : classes.Denotes M id (.inl (M.value t)) := by
  cases t with
  | var name =>
    have hdenotes := Denotes.of_forall₂ (M := M) (term?_of_nodeOf? hid) .nil
    rwa [M.apply_variable hnamed] at hdenotes
  | const name =>
    have hdenotes := Denotes.of_forall₂ (M := M) (term?_of_nodeOf? hid) .nil
    rwa [M.apply_constant hnamed] at hdenotes
  | app function ts =>
    obtain ⟨ids, hids, hnode⟩ := idOf?_app_eq_some.1 hid
    obtain ⟨hfunction, _, hall⟩ := hnamed
    have hdenotes := Denotes.of_forall₂ (term?_of_nodeOf? hnode) (denotes_values ts hall hids)
    rwa [M.apply_function hfunction] at hdenotes

theorem denotes_values {ids : List NodeId} (ts : List Term) (hnamed : AllWellNamed ts)
    (hids : classes.idsOf? ts = some ids) :
    List.Forall₂ (classes.Denotes M) ids ((M.values ts).map .inl) := by
  cases ts with
  | nil =>
    cases hids
    exact .nil
  | cons t ts =>
    obtain ⟨id, rest, hid, hrest, rfl⟩ := idsOf?_cons_eq_some.1 hids
    exact .cons (denotes_value t hnamed.1 hid) (denotes_values ts hnamed.2 hrest)

end

/-- An atom is true in a structure exactly if its two sides denote the same. -/
theorem models_iff_agree {formula : Formula} {sides : NodeId × NodeId} (hnamed : formula.WellNamed)
    (hsides : classes.HasSides formula sides) :
    M.Models formula ↔ classes.Agree M sides.1 sides.2 := by
  cases hsides with
  | equality hleft hright =>
    rw [agree_iff (denotes_value _ hnamed.1 hleft) (denotes_value _ hnamed.2 hright),
      Sum.inl.injEq]
    rfl
  | relation hids hrelation htruth =>
    obtain ⟨hname, hall⟩ := hnamed
    have hdenotes := Denotes.of_forall₂ (M := M) (term?_of_nodeOf? hrelation)
      (denotes_values _ hall hids)
    rw [M.apply_relation hname] at hdenotes
    have htrue := Denotes.of_forall₂ (M := M) (term?_of_nodeOf? htruth) .nil
    rw [agree_iff hdenotes htrue, M.apply_truth, Sum.inr.injEq, eq_iff_iff, iff_true]
    rfl

end Satisfiability.Equality.TermClasses
