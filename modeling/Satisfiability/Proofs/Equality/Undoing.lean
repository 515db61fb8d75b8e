import Satisfiability.Proofs.Equality.Entailment

/-!
# Levels of the theory undone

Whatever is asserted on a level, and on those opened above it, goes when the level is closed. So
long as the theory stays above a level it stands over what it was there (`StandsOn`), and a return
to the level finds the very same theory (`backtrack_undoes`).
-/

namespace Satisfiability.Equality.Solver

open Satisfiability.FirstOrder (Formula)

variable {solver below : Solver} {atoms : List (Atom × Formula)}

/-- Closing the levels above the one of `below` leaves `below`. -/
structure StandsOn (solver below : Solver) : Prop where
  coherent : solver.Coherent
  level_lt : below.level < solver.level
  closes : solver.closeLevels (solver.level - below.level) = below

theorem Coherent.standsOn_openLevel (h : solver.Coherent) : solver.openLevel.StandsOn solver := by
  have hlevel : solver.openLevel.level = solver.level + 1 := rfl
  refine ⟨h.openLevel, hlevel ▸ Nat.lt_succ_self _, ?_⟩
  rw [hlevel, Nat.add_sub_cancel_left]
  rfl

theorem closeLevels_eq_of_closeLevel {solver' : Solver} {count : Nat} (hpos : 0 < count)
    (h : solver'.closeLevel = solver.closeLevel) :
    solver'.closeLevels count = solver.closeLevels count := by
  obtain ⟨count, rfl⟩ := Nat.exists_eq_succ_of_ne_zero (Nat.ne_of_gt hpos)
  rw [closeLevels, h, closeLevels]

theorem StandsOn.assert (h : solver.StandsOn below) (literal : Literal) :
    ((Call.assert literal).apply solver).StandsOn below := by
  show ((solver.assert literal).toOption.getD solver).StandsOn below
  cases hassert : solver.assert literal with
  | error fault => exact h
  | ok solver' =>
    obtain ⟨hasserted, hcoherent⟩ := h.coherent.asserted hassert
    have hlevel := h.level_lt
    have hclose : solver'.closeLevel = solver.closeLevel :=
      hasserted.below (Nat.lt_of_le_of_lt (Nat.zero_le _) hlevel)
    refine ⟨hcoherent, hasserted.level ▸ hlevel, ?_⟩
    change solver'.closeLevels (solver'.level - below.level) = below
    rw [hasserted.level, closeLevels_eq_of_closeLevel (Nat.sub_pos_of_lt hlevel) hclose, h.closes]

theorem StandsOn.openLevel (h : solver.StandsOn below) : solver.openLevel.StandsOn below := by
  have hlevel : solver.openLevel.level = solver.level + 1 := rfl
  have hlt := h.level_lt
  refine ⟨h.coherent.openLevel, by omega, ?_⟩
  rw [hlevel, Nat.succ_sub (Nat.le_of_lt hlt)]
  exact h.closes

theorem StandsOn.backtrack (h : solver.StandsOn below) {level : Nat} (habove : below.level < level) :
    ((Call.backtrack level).apply solver).StandsOn below := by
  show ((solver.backtrack level).toOption.getD solver).StandsOn below
  unfold Solver.backtrack
  by_cases hlevel : solver.level < level
  · rw [if_pos hlevel]
    exact h
  · rw [if_neg hlevel]
    show (solver.closeLevels (solver.level - level)).StandsOn below
    have hclosed : (solver.closeLevels (solver.level - level)).level = level := by
      rw [level_closeLevels]
      omega
    refine ⟨(h.coherent.closeLevels (Nat.sub_le _ _)).1, hclosed.symm ▸ habove, ?_⟩
    rw [hclosed, ← closeLevels_add, Nat.sub_add_sub_cancel (Nat.le_of_not_lt hlevel)
      (Nat.le_of_lt habove)]
    exact h.closes

theorem StandsOn.calls (h : solver.StandsOn below) {calls : List Call}
    (habove : ∀ level, Call.backtrack level ∈ calls → below.level < level) :
    (calls.foldl Call.apply solver).StandsOn below := by
  induction calls generalizing solver with
  | nil => exact h
  | cons call rest ih =>
    refine ih ?_ fun level hmem => habove level (List.mem_cons_of_mem _ hmem)
    cases call with
    | openLevel => exact h.openLevel
    | assert literal => exact h.assert literal
    | backtrack level => exact h.backtrack (habove level List.mem_cons_self)

/-- After a level was opened, and whatever calls that do not return to the level below, a return to
that level finds the theory as it was: terms, classes, what is to be undone and what is asserted. A
return to a level above the present one is refused and changes nothing. -/
theorem backtrack_undoes (atoms : List (Atom × Formula)) (calls later : List Call)
    (habove : ∀ level, Call.backtrack level ∈ later → (after atoms calls).level < level) :
    (after atoms (calls ++ .openLevel :: later)).backtrack (after atoms calls).level =
        .ok (after atoms calls) ∧
      ∀ level, (after atoms calls).level < level →
        (after atoms calls).backtrack level = .error .invalidLevel ∧
          after atoms (calls ++ [.backtrack level]) = after atoms calls := by
  have hcoherent := (runs_after atoms calls).coherent
  have hstands : (after atoms (calls ++ .openLevel :: later)).StandsOn (after atoms calls) := by
    rw [after, List.foldl_append, List.foldl_cons]
    exact hcoherent.standsOn_openLevel.calls habove
  refine ⟨?_, fun level hlevel => ?_⟩
  · rw [Solver.backtrack, if_neg (Nat.not_lt.2 (Nat.le_of_lt hstands.level_lt)), hstands.closes]
  · have hrefused : (after atoms calls).backtrack level = .error .invalidLevel := if_pos hlevel
    refine ⟨hrefused, ?_⟩
    rw [after, List.foldl_append]
    show ((after atoms calls).backtrack level).toOption.getD (after atoms calls) = _
    rw [hrefused]
    rfl

/-- Calls above level one: two classes and those of their parents are merged, an atom is asserted
with both values, and there are returns to levels that are open and not open. -/
def nestedCalls : List Call :=
  [.assert ⟨1, true⟩, .openLevel, .assert ⟨0, false⟩, .assert ⟨1, false⟩, .backtrack 7, .backtrack 2]

theorem backtrack_undoes_nested :
    (∀ level, Call.backtrack level ∈ nestedCalls →
      (after unaryAtoms [.openLevel, .assert ⟨2, true⟩]).level < level) ∧
    (after unaryAtoms ([.openLevel, .assert ⟨2, true⟩] ++ .openLevel :: nestedCalls)).backtrack 1 =
      .ok (after unaryAtoms [.openLevel, .assert ⟨2, true⟩]) := by
  have hlevel : (after unaryAtoms [.openLevel, .assert ⟨2, true⟩]).level = 1 := by decide +kernel
  have habove : ∀ level, Call.backtrack level ∈ nestedCalls →
      (after unaryAtoms [.openLevel, .assert ⟨2, true⟩]).level < level := by
    intro level hmem
    rw [hlevel]
    simp only [nestedCalls, List.mem_cons, List.not_mem_nil] at hmem
    grind
  refine ⟨habove, ?_⟩
  have hundone := (backtrack_undoes unaryAtoms _ nestedCalls habove).1
  rwa [hlevel] at hundone

end Satisfiability.Equality.Solver
