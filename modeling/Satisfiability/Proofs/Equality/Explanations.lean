import Satisfiability.Proofs.Equality.Levels

/-!
# Explanations

The explanation of an atom is made of the negations of different equations asserted true and of the
atom itself (`Exact.explain`), whatever is left out of it as superfluous (`minimise_sublist`).
-/

namespace Satisfiability.Equality.Solver

variable {solver : Solver} {atom : Atom} {clause : Clause}

theorem minimise_sublist (sides : NodeId × NodeId) (kept rest : List Atom) :
    (solver.minimise sides kept rest).Sublist (kept ++ rest) := by
  induction rest generalizing kept with
  | nil =>
    rw [minimise, List.append_nil]
  | cons first rest ih =>
    rw [minimise]
    split
    · exact (ih kept).trans ((List.sublist_cons_self first rest).append_left kept)
    · exact (ih (kept ++ [first])).trans (by simp)

/-- The literals of an explanation differ and are about atoms of the theory. -/
theorem Exact.explain (h : solver.Exact) (hexplain : solver.explain atom = .ok clause) :
    ⟨atom, true⟩ ∈ clause ∧ clause.Nodup ∧
      ∀ literal ∈ clause, ∃ sides, solver.sides.find? literal.atom = some sides := by
  unfold Solver.explain at hexplain
  split at hexplain
  · exact absurd hexplain (by simp)
  · rename_i sides hsides
    generalize hasserted : (solver.assertions.literals.filter fun literal =>
      literal.positive && literal.atom != atom).map Literal.atom = asserted at hexplain
    have hsublist : (if solver.entails asserted sides = true then
        solver.minimise sides [] asserted else asserted).Sublist asserted := by
      split
      · exact minimise_sublist sides [] asserted
      · exact List.Sublist.refl _
    have hliterals : asserted.Sublist (solver.assertions.literals.map Literal.atom) := by
      rw [← hasserted]
      exact List.filter_sublist.map _
    cases hexplain
    refine ⟨List.mem_append_right _ List.mem_cons_self, ?_, fun literal hmem => ?_⟩
    · -- the reasons are negated, and the atom explained is not
      rw [List.nodup_append]
      refine ⟨(h.nodup.sublist (hsublist.trans hliterals)).map fun a b heq => ?_,
        List.nodup_singleton _, fun a ha b hb heq => ?_⟩
      · exact congrArg Literal.atom heq
      · obtain ⟨reason, _, rfl⟩ := List.mem_map.1 ha
        rw [List.mem_singleton.1 hb] at heq
        exact absurd (congrArg Literal.positive heq) (by simp)
    · rcases List.mem_append.1 hmem with hmem | hmem
      · obtain ⟨reason, hreason, rfl⟩ := List.mem_map.1 hmem
        obtain ⟨other, hother, rfl⟩ := List.mem_map.1 ((hsublist.trans hliterals).subset hreason)
        exact h.known other hother
      · rw [List.mem_singleton.1 hmem]
        exact ⟨sides, hsides⟩

end Satisfiability.Equality.Solver
