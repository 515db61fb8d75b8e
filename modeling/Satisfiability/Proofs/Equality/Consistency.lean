import Mathlib.Order.Defs.LinearOrder
import Satisfiability.Proofs.Equality.Levels
import Satisfiability.Proofs.KeyMap

/-!
# Consistent assertions

The theory of some atoms knows the two sides of each equality and relation among them
(`Solver.Over`). If no atom whose sides are in one class is asserted false, then the structure of
the classes makes exactly those of the asserted atoms true that are asserted true
(`Exact.truth_iff`).
-/

namespace Satisfiability.Equality

open Satisfiability.FirstOrder (Formula)
open TermClasses

variable {classes classes' : TermClasses}

/-! ## The sides of atoms -/

namespace Solver

theorem interned_of_internAtom (h : classes.Valid) {formula : Formula} {sides : NodeId × NodeId}
    (hintern : internAtom classes formula = some (sides, classes')) :
    classes.Interned classes' ∧ classes'.HasSides formula sides := by
  cases formula with
  | equality left right =>
    cases hintern
    obtain ⟨hfirst, hleft⟩ := h.intern left
    obtain ⟨hsecond, hright⟩ := hfirst.valid.intern right
    exact ⟨hfirst.trans hsecond, .equality (hsecond.idOf? hleft) hright⟩
  | relation name ts =>
    cases hintern
    obtain ⟨hfirst, hids⟩ := h.internAll ts
    obtain ⟨hsecond, hrelation⟩ := hfirst.valid.internNode name (lt_size_of_idsOf? hids)
    obtain ⟨hthird, htruth⟩ := hsecond.valid.internNode truthSymbol (List.forall_mem_nil _)
    exact ⟨(hfirst.trans hsecond).trans hthird, .relation ((hsecond.trans hthird).idsOf? hids)
      (hthird.valid.nodeOf?_eq_some.2 (hthird.term _ _ hrelation))
      (hthird.valid.nodeOf?_eq_some.2 htruth)⟩
  | _ => exact absurd hintern (by simp [internAtom])

theorem internAtom_isSome {formula : Formula} (hatomic : formula.isAtomic = true) :
    ∃ sides classes', internAtom classes formula = some (sides, classes') := by
  cases formula with
  | equality left right => exact ⟨_, _, rfl⟩
  | relation name ts => exact ⟨_, _, rfl⟩
  | _ => exact absurd hatomic (by simp [Formula.isAtomic])

structure Knows (classes : TermClasses) (sides : KeyMap Atom (NodeId × NodeId))
    (atoms : List (Atom × Formula)) : Prop where
  ordered : sides.Ordered
  known : ∀ atom pair, sides.find? atom = some pair →
    ∃ formula, (atom, formula) ∈ atoms ∧ classes.HasSides formula pair
  atomic : ∀ atom formula, (atom, formula) ∈ atoms → formula.isAtomic = true →
    ∃ pair, sides.find? atom = some pair

def Over (solver : Solver) (atoms : List (Atom × Formula)) : Prop :=
  Knows solver.pristine solver.sides atoms

theorem Knows.addAtom {sides : KeyMap Atom (NodeId × NodeId)} {atoms : List (Atom × Formula)}
    (h : Knows classes sides atoms) (hvalid : classes.Valid) (atom : Atom) (formula : Formula) :
    classes.Interned (addAtom (classes, sides) (atom, formula)).1 ∧
      Knows (addAtom (classes, sides) (atom, formula)).1
        (addAtom (classes, sides) (atom, formula)).2 (atoms ++ [(atom, formula)]) := by
  unfold Solver.addAtom
  cases hintern : internAtom classes formula with
  -- only an atomic formula has sides
  | none =>
    refine ⟨hvalid.interned, h.ordered, fun other pair hpair => ?_, fun other formula' hmem hatomic => ?_⟩
    · obtain ⟨formula', hmem, hsides⟩ := h.known other pair hpair
      exact ⟨formula', List.mem_append_left _ hmem, hsides⟩
    · rcases List.mem_append.1 hmem with hmem | hmem
      · exact h.atomic other formula' hmem hatomic
      · cases List.mem_singleton.1 hmem
        obtain ⟨_, _, hsome⟩ := @internAtom_isSome classes _ hatomic
        exact absurd (hintern.symm.trans hsome) (by simp)
  | some result =>
    obtain ⟨pair, classes'⟩ := result
    obtain ⟨hinterned, hsides⟩ := interned_of_internAtom hvalid hintern
    refine ⟨hinterned, h.ordered.insert, fun other pair' hpair => ?_,
      fun other formula' hmem hatomic => ?_⟩
    · rw [KeyMap.find?_insert] at hpair
      split at hpair
      · rename_i heq
        cases hpair
        exact ⟨formula, heq ▸ List.mem_append_right _ List.mem_cons_self, hsides⟩
      · obtain ⟨formula', hmem, hsides'⟩ := h.known other pair' hpair
        exact ⟨formula', List.mem_append_left _ hmem,
          hinterned.valid.hasSides_of_term hinterned.term hsides'⟩
    · simp only [KeyMap.find?_insert]
      split
      · exact ⟨pair, rfl⟩
      · rename_i hne
        rcases List.mem_append.1 hmem with hmem | hmem
        · exact h.atomic other formula' hmem hatomic
        · cases List.mem_singleton.1 hmem
          exact absurd rfl hne

theorem Knows.addAtoms {sides : KeyMap Atom (NodeId × NodeId)} {atoms : List (Atom × Formula)}
    (h : Knows classes sides atoms) (hvalid : classes.Valid) (more : List (Atom × Formula)) :
    classes.Interned (more.foldl Solver.addAtom (classes, sides)).1 ∧
      Knows (more.foldl Solver.addAtom (classes, sides)).1
        (more.foldl Solver.addAtom (classes, sides)).2 (atoms ++ more) := by
  induction more generalizing classes sides atoms with
  | nil => exact ⟨hvalid.interned, (List.append_nil atoms).symm ▸ h⟩
  | cons pair rest ih =>
    obtain ⟨hfirst, hknows⟩ := h.addAtom hvalid pair.1 pair.2
    obtain ⟨hrest, hknows'⟩ := ih hknows hfirst.valid
    rw [List.append_assoc] at hknows'
    exact ⟨hfirst.trans hrest, hknows'⟩

theorem interned_ofAtoms (atoms : List (Atom × Formula)) :
    Interned {} (ofAtoms atoms).classes ∧ (ofAtoms atoms).Over atoms := by
  have hempty : Knows {} (.empty : KeyMap Atom (NodeId × NodeId)) [] :=
    ⟨List.Pairwise.nil, fun _ _ h => absurd h (by simp [KeyMap.empty, KeyMap.find?, KeyMap.get?]),
      fun _ _ h => absurd h List.not_mem_nil⟩
  exact hempty.addAtoms valid_empty atoms

theorem ofAtoms_spec (atoms : List (Atom × Formula)) :
    (ofAtoms atoms).Coherent ∧ (ofAtoms atoms).Over atoms ∧ (ofAtoms atoms).level = 0 ∧
      (ofAtoms atoms).assertions = {} := by
  obtain ⟨hinterned, hover⟩ := interned_ofAtoms atoms
  refine ⟨⟨hinterned.valid, ?_, fun _ _ => id, fun atom sides hsides => ?_,
    fun _ _ h => absurd h List.not_mem_nil, List.nodup_nil, fun _ h => absurd h List.not_mem_nil,
    fun _ h => absurd h List.not_mem_nil, congrArg List.length hinterned.checkpoints⟩, hover, rfl, rfl⟩
  · exact hinterned.valid.closed_of_representative hinterned.representative_eq_self
  · obtain ⟨formula, _, h⟩ := hover.known atom sides hsides
    exact h.lt_size

/-! ## What is consistent -/

variable {solver solver' : Solver} {atoms : List (Atom × Formula)}

theorem Over.sameAtoms (h : solver.Over atoms) (hatoms : solver.SameAtoms solver') :
    solver'.Over atoms := by
  rw [Over, hatoms.pristine, hatoms.sides]
  exact h

theorem Over.mem_equalAtoms (h : solver.Over atoms) {atom : Atom} {sides : NodeId × NodeId}
    (hsides : solver.sides.find? atom = some sides)
    (hsame : solver.classes.same sides.1 sides.2 = true) : atom ∈ solver.equalAtoms :=
  List.mem_map.2 ⟨(atom, sides), List.mem_filter.2 ⟨h.ordered.mem_toList.2 hsides, hsame⟩, rfl⟩

theorem Over.sides_of_mem_equalAtoms (h : solver.Over atoms) {atom : Atom}
    (hatom : atom ∈ solver.equalAtoms) : ∃ sides, solver.sides.find? atom = some sides ∧
      solver.classes.same sides.1 sides.2 = true := by
  obtain ⟨⟨atom, sides⟩, hmem, rfl⟩ := List.mem_map.1 hatom
  obtain ⟨hmem, hsame⟩ := List.mem_filter.1 hmem
  exact ⟨sides, h.ordered.mem_toList.1 hmem, hsame⟩

theorem not_false_of_propagate (h : ∀ literal, solver.propagate ≠ .conflict literal) {atom : Atom}
    (hatom : atom ∈ solver.equalAtoms) : solver.value? atom ≠ some false := by
  intro hvalue
  cases hfind : solver.equalAtoms.find? fun atom => solver.value? atom == some false with
  | some other => exact h ⟨other, false⟩ (by simp only [propagate, hfind])
  | none =>
    have hfails := List.find?_eq_none.1 hfind atom hatom
    rw [hvalue, beq_self_eq_true] at hfails
    exact hfails rfl

/-- What is asserted of an atom is its truth in the structure of the classes. -/
theorem Exact.truth_iff (h : solver.Exact) (hover : solver.Over atoms)
    (hnodup : (atoms.map Prod.fst).Nodup)
    (hconsistent : ∀ literal, solver.propagate ≠ .conflict literal)
    (quantified : Formula → Prop) {atom : Atom} {formula : Formula} {value : Bool}
    (hmem : (atom, formula) ∈ atoms) (hatomic : formula.isAtomic = true)
    (hvalue : solver.value? atom = some value) :
    solver.classes.interpretation.truth quantified formula ↔ value = true := by
  obtain ⟨sides, hsides⟩ := hover.atomic atom formula hmem hatomic
  obtain ⟨formula', hmem', hhas⟩ := hover.known atom sides hsides
  cases KeyMap.eq_of_mem hnodup hmem' hmem
  rw [h.closed.truth quantified (h.valid.hasSides_of_term h.terms hhas)]
  constructor
  · intro hsame
    have hnot := not_false_of_propagate hconsistent (hover.mem_equalAtoms hsides hsame)
    rw [hvalue] at hnot
    simpa using hnot
  · intro htrue
    exact h.merged atom sides (htrue ▸ mem_of_value? hvalue) hsides

end Solver

end Satisfiability.Equality
