import Mathlib.Data.List.Nodup
import Satisfiability.Clause

/-!
# Clauses without repetition

The canonical form of a clause has the same literals, each once; there is none exactly for a
tautology. A clause without repeated atoms is its own canonical form.
-/

namespace Satisfiability.Clause

variable {kept clause canonical : Clause}

theorem canonicalFrom_spec (hkept : kept.Nodup) (clause : Clause) :
    match canonicalFrom kept clause with
    | some canonical => canonical.Nodup ∧ ∀ literal, literal ∈ canonical ↔
        literal ∈ kept ∨ literal ∈ clause
    | none => ∃ literal, (literal ∈ kept ∨ literal ∈ clause) ∧ (-literal ∈ kept ∨ -literal ∈ clause)
    := by
  -- what was kept grows with the literals gone through
  induction clause generalizing kept with
  | nil => simpa [canonicalFrom] using hkept
  | cons literal rest ih =>
    unfold canonicalFrom
    by_cases hneg : -literal ∈ kept
    · simp only [List.contains_eq_mem, hneg, decide_true, if_true]
      exact ⟨literal, by simp, Or.inl hneg⟩
    · by_cases hmem : literal ∈ kept
      · simp only [List.contains_eq_mem, hneg, hmem, decide_true, decide_false, if_true,
          Bool.false_eq_true, if_false]
        have hrest := ih hkept
        split at hrest
        · refine ⟨hrest.1, fun other => ?_⟩
          rw [hrest.2, List.mem_cons]
          grind
        · obtain ⟨other, hpos, hneg'⟩ := hrest
          exact ⟨other, hpos.imp_right (List.mem_cons_of_mem _),
            hneg'.imp_right (List.mem_cons_of_mem _)⟩
      · simp only [List.contains_eq_mem, hneg, hmem, decide_false, Bool.false_eq_true, if_false]
        have hkept' : (kept ++ [literal]).Nodup := by
          simpa [List.nodup_append] using ⟨hkept, fun x hx heq => hmem (heq ▸ hx)⟩
        have hrest := ih hkept'
        simp only [List.mem_append, List.mem_singleton] at hrest
        split at hrest
        · refine ⟨hrest.1, fun other => ?_⟩
          rw [hrest.2, List.mem_cons, or_assoc]
        · obtain ⟨other, hpos, hneg'⟩ := hrest
          refine ⟨other, ?_, ?_⟩
          · rw [List.mem_cons, ← or_assoc]
            exact hpos
          · rw [List.mem_cons, ← or_assoc]
            exact hneg'

theorem canonical?_eq_some (h : clause.canonical? = some canonical) :
    canonical.Nodup ∧ ∀ literal, literal ∈ canonical ↔ literal ∈ clause := by
  have hspec := canonicalFrom_spec List.nodup_nil clause
  rw [show canonicalFrom [] clause = some canonical from h] at hspec
  simpa using hspec

theorem canonical?_eq_none (h : clause.canonical? = none) :
    ∃ literal ∈ clause, -literal ∈ clause := by
  have hspec := canonicalFrom_spec List.nodup_nil clause
  rw [show canonicalFrom [] clause = none from h] at hspec
  simpa using hspec

theorem nodup_of_atoms (h : clause.atoms.Nodup) : clause.Nodup := List.Nodup.of_map Literal.atom h

theorem eq_or_eq_neg {literal other : Literal} (h : literal.atom = other.atom) :
    literal = other ∨ -literal = other := by
  obtain ⟨atom, positive⟩ := literal
  obtain ⟨atom', positive'⟩ := other
  obtain rfl : atom = atom' := h
  cases positive <;> cases positive' <;> simp [Neg.neg, Literal.negate]

theorem canonicalFrom_eq_append (hkept : kept.atoms.Nodup) (clause : Clause) :
    canonicalFrom kept clause = some (kept ++ clause) ↔ (kept ++ clause).atoms.Nodup := by
  induction clause generalizing kept with
  | nil => simpa [canonicalFrom] using hkept
  | cons literal rest ih =>
    unfold canonicalFrom
    by_cases hneg : -literal ∈ kept
    · have htwice : ¬ (kept ++ literal :: rest).atoms.Nodup := by
        rw [atoms, List.map_append, List.nodup_append]
        exact fun h => h.2.2 _ (List.mem_map_of_mem hneg) literal.atom (by simp) rfl
      simp [hneg, htwice]
    · by_cases hmem : literal ∈ kept
      · have htwice : ¬ (kept ++ literal :: rest).Nodup := by
          rw [List.nodup_append]
          exact fun h => h.2.2 _ hmem literal List.mem_cons_self rfl
        -- the literal is dropped, so what comes out cannot be the whole list
        have hspec := canonicalFrom_spec (nodup_of_atoms hkept) rest
        simp only [List.contains_eq_mem, hneg, hmem, decide_true, decide_false, if_true,
          Bool.false_eq_true, if_false]
        refine ⟨fun h => ?_, fun h => absurd (nodup_of_atoms h) htwice⟩
        rw [h] at hspec
        exact absurd hspec.1 htwice
      · have hatom : literal.atom ∉ kept.atoms := by
          intro hatom
          obtain ⟨other, hother, heq⟩ := List.mem_map.1 hatom
          rcases eq_or_eq_neg heq.symm with rfl | rfl
          · exact hmem hother
          · exact hneg hother
        have hkept' : (kept ++ [literal]).atoms.Nodup := by
          rw [atoms, List.map_append, List.nodup_append]
          refine ⟨hkept, List.nodup_singleton _, fun a ha b hb => ?_⟩
          rw [List.mem_singleton.1 hb]
          exact fun heq => hatom (heq ▸ ha)
        simp only [List.contains_eq_mem, hneg, hmem, decide_false, Bool.false_eq_true, if_false]
        simpa using ih hkept'

theorem canonical?_eq_self : clause.canonical? = some clause ↔ clause.atoms.Nodup := by
  have hempty : atoms [] = [] := rfl
  exact canonicalFrom_eq_append (hempty ▸ List.nodup_nil) clause

end Satisfiability.Clause
