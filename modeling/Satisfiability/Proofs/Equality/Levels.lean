import Satisfiability.Proofs.Equality.Interpretation
import Satisfiability.Proofs.Search.Trail

/-!
# Levels of the theory of equality

Whatever is asserted, the classes are closed and the two sides of each equation asserted true are in
one class (`Exact`). Since undoing returns to the very classes of the checkpoint, the same holds of
all levels below (`Coherent`), and so of whatever level the theory goes back to
(`Coherent.closeLevels`).
-/

namespace Satisfiability.Equality.Solver

open Search (Trail)
open Search.Trail TermClasses

variable {solver solver' : Solver} {literal : Literal}

/-- The classes are closed, and the equations asserted true hold in them. -/
structure Exact (solver : Solver) : Prop where
  valid : solver.classes.Valid
  closed : solver.classes.Closed
  terms : ∀ id term, solver.pristine.term? id = some term → solver.classes.term? id = some term
  ranged : ∀ atom sides, solver.sides.find? atom = some sides →
    sides.1 < solver.classes.size ∧ sides.2 < solver.classes.size
  merged : ∀ atom sides, (⟨atom, true⟩ : Literal) ∈ solver.assertions.literals →
    solver.sides.find? atom = some sides → solver.classes.same sides.1 sides.2 = true
  nodup : (solver.assertions.literals.map Literal.atom).Nodup
  known : ∀ literal ∈ solver.assertions.literals,
    ∃ sides, solver.sides.find? literal.atom = some sides
  valued : ∀ literal ∈ solver.assertions.literals,
    solver.value? literal.atom = some literal.positive
  checkpoints : solver.classes.checkpoints.length = solver.level

/-- The theory is exact on its present level and will be on each one below. -/
def ExactDown (solver : Solver) : (levels : Nat) → Prop
  | 0 => solver.Exact
  | levels + 1 => solver.Exact ∧ solver.closeLevel.ExactDown levels

def Coherent (solver : Solver) : Prop := solver.ExactDown solver.level

structure SameAtoms (solver solver' : Solver) : Prop where
  pristine : solver'.pristine = solver.pristine
  sides : solver'.sides = solver.sides

theorem SameAtoms.refl (solver : Solver) : solver.SameAtoms solver := ⟨rfl, rfl⟩

theorem SameAtoms.trans {solver'' : Solver} (h : solver.SameAtoms solver')
    (h' : solver'.SameAtoms solver'') : solver.SameAtoms solver'' :=
  ⟨h'.pristine.trans h.pristine, h'.sides.trans h.sides⟩

theorem ExactDown.exact {levels : Nat} (h : solver.ExactDown levels) : solver.Exact := by
  cases levels with
  | zero => exact h
  | succ levels => exact h.1

theorem Coherent.exact (h : solver.Coherent) : solver.Exact := ExactDown.exact h

/-! ## Assertions -/

theorem literals_push (trail : Trail) : (trail.push literal).literals = trail.literals ++ [literal] := by
  rw [← map_fst_marked, marked_push, List.map_append, map_fst_marked]
  rfl

theorem closeLevel_push {trail : Trail} (hlevel : 0 < trail.level) :
    (trail.push literal).closeLevel.2 = trail.closeLevel.2 := by
  obtain ⟨ground, levels⟩ := trail
  cases levels with
  | nil => exact absurd hlevel (Nat.lt_irrefl 0)
  | cons top below => rfl

theorem mem_of_value? {atom : Atom} {value : Bool} (h : solver.value? atom = some value) :
    (⟨atom, value⟩ : Literal) ∈ solver.assertions.literals := by
  obtain ⟨found, hfound, rfl⟩ := Option.map_eq_some_iff.1 h
  have hatom : found.atom = atom := by simpa using List.find?_some hfound
  exact hatom ▸ List.mem_of_find?_eq_some hfound

theorem value?_of_push (classes : TermClasses) (hnone : solver.value? literal.atom = none)
    (atom : Atom) : Solver.value? { solver with
      assertions := solver.assertions.push literal, classes } atom =
        if atom = literal.atom then some literal.positive else solver.value? atom := by
  rw [value?, literals_push, List.find?_append]
  by_cases heq : atom = literal.atom
  · rw [if_pos heq, heq, Option.map_eq_none_iff.1 hnone]
    simp
  · rw [if_neg heq]
    simp [value?, Ne.symm heq]

structure Asserted (solver : Solver) (literal : Literal) (solver' : Solver) : Prop where
  atoms : solver.SameAtoms solver'
  exact : solver'.Exact
  below : 0 < solver.level → solver'.closeLevel = solver.closeLevel
  marked : solver'.assertions.marked = solver.assertions.marked ∨
    solver'.assertions.marked = solver.assertions.marked ++ [(literal, solver.level)]
  mem : literal ∈ solver'.assertions.literals
  level : solver'.level = solver.level

theorem not_mem_of_value? (h : solver.value? literal.atom = none) :
    literal.atom ∉ solver.assertions.literals.map Literal.atom := by
  intro hmem
  obtain ⟨other, hother, heq⟩ := List.mem_map.1 hmem
  have hfails := List.find?_eq_none.1 (Option.map_eq_none_iff.1 h) other hother
  exact hfails (beq_iff_eq.2 heq)

section push

variable {classes : TermClasses} (h : solver.Exact) (hnone : solver.value? literal.atom = none)

include h

include hnone in
theorem Exact.nodup_push :
    ((solver.assertions.push literal).literals.map Literal.atom).Nodup := by
  rw [literals_push, List.map_append, List.nodup_append]
  refine ⟨h.nodup, List.nodup_singleton _, fun atom hatom other hother heq => ?_⟩
  rw [heq, List.mem_singleton.1 hother] at hatom
  exact not_mem_of_value? hnone hatom

include hnone in
theorem Exact.valued_push (classes : TermClasses) {other : Literal}
    (hother : other ∈ (solver.assertions.push literal).literals) :
    Solver.value? { solver with assertions := solver.assertions.push literal, classes } other.atom =
      some other.positive := by
  rw [literals_push, List.mem_append, List.mem_singleton] at hother
  rw [value?_of_push classes hnone]
  rcases hother with hother | rfl
  · have hvalue := h.valued other hother
    have hne : other.atom ≠ literal.atom := by
      intro heq
      rw [heq, hnone] at hvalue
      exact absurd hvalue (by simp)
    rw [if_neg hne, hvalue]
  · rw [if_pos rfl]

theorem Exact.closeLevel_push (hmerged : solver.classes.Merged classes) (hlevel : 0 < solver.level) :
    Solver.closeLevel { solver with assertions := solver.assertions.push literal, classes } =
      solver.closeLevel := by
  have hcheckpoints : solver.classes.checkpoints ≠ [] := by
    rw [← List.length_pos_iff, h.checkpoints]
    exact hlevel
  obtain ⟨log, checkpoints, hcons⟩ := List.exists_cons_of_ne_nil hcheckpoints
  have hsome : solver.classes.restore?.isSome := by
    rw [restore?_eq, hcons]
    rfl
  obtain ⟨restored, hrestored⟩ := Option.isSome_iff_exists.1 hsome
  unfold closeLevel
  rw [hmerged.restore, hrestored, Solver.closeLevel_push hlevel]
  rfl

include hnone in
theorem Exact.push (hknown : ∃ sides, solver.sides.find? literal.atom = some sides)
    (hmerged : solver.classes.Merged classes) (hclosed : classes.Closed)
    (hsame : literal.positive = true → ∀ sides, solver.sides.find? literal.atom = some sides →
      classes.same sides.1 sides.2 = true) : solver.Asserted literal
        { solver with assertions := solver.assertions.push literal, classes } := by
  have hmem : ∀ other, other ∈ (solver.assertions.push literal).literals ↔
      other ∈ solver.assertions.literals ∨ other = literal := fun other => by
    rw [literals_push, List.mem_append, List.mem_singleton]
  have hexact : Exact { solver with assertions := solver.assertions.push literal, classes } := by
    refine ⟨hmerged.valid, hclosed, fun id term hid => ?_, fun atom sides hsides => ?_,
      fun atom sides hatom hsides => ?_, h.nodup_push hnone, fun other hother => ?_,
      fun other => h.valued_push hnone classes, ?_⟩
    · rw [hmerged.terms.term]
      exact h.terms id term hid
    · rw [hmerged.terms.size]
      exact h.ranged atom sides hsides
    · rcases (hmem _).1 hatom with hatom | rfl
      · exact hmerged.same _ _ (h.merged atom sides hatom hsides)
      · exact hsame rfl sides hsides
    · rcases (hmem other).1 hother with hother | rfl
      · exact h.known other hother
      · exact hknown
    · rw [hmerged.checkpoints, h.checkpoints]
      exact (level_push _ _).symm
  exact ⟨⟨rfl, rfl⟩, hexact, h.closeLevel_push hmerged, Or.inr (marked_push _ _),
    (hmem literal).2 (Or.inr rfl), level_push _ _⟩

end push

theorem Exact.asserted (h : solver.Exact) (hassert : solver.assert literal = .ok solver') :
    solver.Asserted literal solver' := by
  unfold assert at hassert
  cases hsides : solver.sides.find? literal.atom with
  | none =>
    rw [hsides] at hassert
    exact absurd hassert (by simp)
  | some sides =>
    obtain ⟨left, right⟩ := sides
    rw [hsides] at hassert
    cases hvalue : solver.value? literal.atom with
    | some value =>
      rw [hvalue] at hassert
      dsimp only at hassert
      split at hassert
      · rename_i heq
        cases hassert
        have hmem := mem_of_value? hvalue
        rw [heq] at hmem
        exact ⟨.refl _, h, fun _ => rfl, Or.inl rfl, hmem, rfl⟩
      · exact absurd hassert (by simp)
    | none =>
      rw [hvalue] at hassert
      dsimp only at hassert
      split at hassert
      · cases hassert
        obtain ⟨hleft, hright⟩ := h.ranged _ _ hsides
        -- an equation asserted true merges the classes of its sides
        obtain ⟨hmerged, hclosed, hsame⟩ := merge_spec h.valid h.closed hleft hright
        refine h.push hvalue ⟨_, hsides⟩ hmerged hclosed fun _ sides hsides' => ?_
        cases hsides.symm.trans hsides'
        exact hsame
      · rename_i hpositive
        cases hassert
        exact h.push hvalue ⟨_, hsides⟩ h.valid.merged h.closed fun hpositive' =>
          absurd hpositive' hpositive

/-! ## Levels -/

theorem literals_openLevel (trail : Trail) : trail.openLevel.literals = trail.literals := by
  rw [← map_fst_marked, marked_openLevel, map_fst_marked]

theorem Exact.openLevel (h : solver.Exact) : solver.openLevel.Exact := by
  have hnodes : solver.openLevel.classes.nodes = solver.classes.nodes := rfl
  have hliterals : solver.openLevel.assertions.literals = solver.assertions.literals :=
    literals_openLevel _
  refine ⟨h.valid.congr hnodes, h.closed.congr hnodes, fun id term hid => ?_, h.ranged,
    fun atom sides hatom hsides => ?_, ?_, fun literal hmem => ?_, fun literal hmem => ?_,
    congrArg Nat.succ h.checkpoints⟩
  · rw [term?_congr hnodes]
    exact h.terms id term hid
  · rw [hliterals] at hatom
    rw [same_congr hnodes]
    exact h.merged atom sides hatom hsides
  · rw [hliterals]
    exact h.nodup
  · rw [hliterals] at hmem
    exact h.known literal hmem
  · rw [hliterals] at hmem
    rw [value?, hliterals]
    exact h.valued literal hmem

theorem sameAtoms_openLevel (solver : Solver) : solver.SameAtoms solver.openLevel := ⟨rfl, rfl⟩

theorem sameAtoms_closeLevel (solver : Solver) : solver.SameAtoms solver.closeLevel := ⟨rfl, rfl⟩

theorem Coherent.openLevel (h : solver.Coherent) : solver.openLevel.Coherent := ⟨h.exact.openLevel, h⟩

theorem Coherent.asserted (h : solver.Coherent) (hassert : solver.assert literal = .ok solver') :
    solver.Asserted literal solver' ∧ solver'.Coherent := by
  have hasserted := h.exact.asserted hassert
  refine ⟨hasserted, ?_⟩
  unfold Coherent at h ⊢
  rw [hasserted.level]
  cases hlevel : solver.level with
  | zero => exact hasserted.exact
  | succ level =>
    rw [hlevel] at h
    rw [ExactDown, hasserted.below (hlevel ▸ Nat.succ_pos level)]
    exact ⟨hasserted.exact, h.2⟩

theorem exists_assert (hatom : solver.hasAtom literal.atom = true)
    (hnew : ∀ other ∈ solver.assertions.literals, other.atom ≠ literal.atom) :
    ∃ solver', solver.assert literal = .ok solver' := by
  obtain ⟨sides, hsides⟩ := Option.isSome_iff_exists.1 hatom
  have hnone : solver.value? literal.atom = none := by
    rw [value?, Option.map_eq_none_iff, List.find?_eq_none]
    exact fun other hmem => by simpa using hnew other hmem
  unfold Solver.assert
  simp only [hsides, hnone]
  split
  · exact ⟨_, rfl⟩
  · exact ⟨_, rfl⟩

theorem Asserted.marked_of_new (h : solver.Asserted literal solver')
    (hnew : ∀ other ∈ solver.assertions.literals, other.atom ≠ literal.atom) :
    solver'.assertions.marked = solver.assertions.marked ++ [(literal, solver.level)] := by
  refine h.marked.resolve_left fun heq => hnew literal ?_ rfl
  have hmem := h.mem
  rwa [← map_fst_marked, heq, map_fst_marked] at hmem

theorem level_closeLevel (solver : Solver) : solver.closeLevel.level = solver.level - 1 :=
  Trail.level_closeLevel _

theorem level_closeLevels (solver : Solver) (count : Nat) :
    (solver.closeLevels count).level = solver.level - count := by
  induction count generalizing solver with
  | zero => rfl
  | succ count ih => rw [closeLevels, ih, level_closeLevel, Nat.sub_sub, Nat.add_comm 1]

theorem closeLevels_add (solver : Solver) (first second : Nat) :
    solver.closeLevels (first + second) = (solver.closeLevels first).closeLevels second := by
  induction first generalizing solver with
  | zero => rw [Nat.zero_add, closeLevels]
  | succ first ih => rw [Nat.succ_add, closeLevels, ih, closeLevels]

/-- A return to a level finds the theory as exact as it was there. -/
theorem Coherent.closeLevels {count : Nat} (h : solver.Coherent) (hcount : count ≤ solver.level) :
    (solver.closeLevels count).Coherent ∧ solver.SameAtoms (solver.closeLevels count) ∧
      (solver.closeLevels count).level = solver.level - count ∧
      (solver.closeLevels count).assertions.marked =
        upTo (solver.level - count) solver.assertions.marked := by
  -- level by level: each is one on which the theory is exact
  induction count generalizing solver with
  | zero =>
    exact ⟨h, .refl _, rfl, (upTo_eq_self fun _ => Trail.level_le).symm⟩
  | succ count ih =>
    obtain ⟨below, hbelow⟩ : ∃ below, solver.level = below + 1 :=
      Nat.exists_eq_succ_of_ne_zero (by omega)
    have hclosed := level_closeLevel solver
    have hcoherent : solver.closeLevel.Coherent := by
      unfold Coherent at h ⊢
      rw [hbelow] at h
      rw [hclosed, hbelow]
      exact h.2
    obtain ⟨hrest, hatoms, hlevel, hmarked⟩ := ih hcoherent (by omega)
    refine ⟨hrest, (sameAtoms_closeLevel solver).trans hatoms, ?_, ?_⟩
    · rw [Solver.closeLevels, hlevel, hclosed]
      omega
    · have hpos : 0 < solver.level := hbelow ▸ Nat.succ_pos below
      have hbelow' : solver.closeLevel.assertions.marked =
          upTo (solver.level - 1) solver.assertions.marked := marked_closeLevel_upTo hpos
      rw [Solver.closeLevels, hmarked, hbelow', hclosed, upTo_upTo (by omega)]
      congr 1
      omega

end Satisfiability.Equality.Solver
