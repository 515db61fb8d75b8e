import Satisfiability.Proofs.Context.Calls

/-!
# What an analysis returns

In a session a conflict above the ground always yields an asserting clause (`Calls.asserting`): it
is false, about each atom once and about none of the ground, with a single literal of the newest
level, and it follows from the clauses stored and the literals of the ground. Units are not needed
as premises, since their literals are on the ground.
-/

namespace Satisfiability.Context

open Search Step Trail

variable {ρ : Type} {ctx ctx' : Context ρ} {log : List (Source × Clause)} {literal : Literal}
  {clause : Clause} {key : ClauseKey} {learnt : Asserting}

/-- A clause learnt from a conflict is false, forces its asserted literal on its level, and follows
from the stored clauses and the ground. -/
structure Asserts (ctx : Context ρ) (learnt : Asserting) : Prop where
  fails : ∀ literal ∈ learnt.clause, ctx.valuation.status literal = .fails
  distinct : learnt.clause.atoms.Nodup
  above : ∀ literal ∈ learnt.clause, ctx.atoms.level? literal.atom ≠ some 0
  newest : ∀ literal, (literal ∈ learnt.clause ∧
    ctx.atoms.level? literal.atom = some ctx.trail.level) ↔ literal = learnt.asserted
  level_le : ∀ literal ∈ learnt.clause, literal ≠ learnt.asserted →
    ∃ level ≤ learnt.level, ctx.atoms.level? literal.atom = some level
  level_mem : (learnt.clause = [learnt.asserted] ∧ learnt.level = 0) ∨
    ∃ literal ∈ learnt.clause, literal ≠ learnt.asserted ∧
      ctx.atoms.level? literal.atom = some learnt.level
  level_lt : learnt.level < ctx.trail.level
  entailed : ∀ model : Atom → Bool,
    (∀ key watched, ctx.clauses.get? key = some watched → Satisfied model watched.literals) →
    (∀ literal ∈ ctx.trail.ground, model literal.atom = literal.positive) →
      Satisfied model learnt.clause

/-- The clauses of one literal need no mention, where their literals are on the ground. -/
theorem Noted.upholds (h : ctx.Noted) {model : Atom → Bool}
    (hstored : ∀ key watched, ctx.clauses.get? key = some watched →
      Satisfied model watched.literals)
    (hground : ∀ literal ∈ ctx.trail.ground, model literal.atom = literal.positive) :
    ctx.Upholds model := by
  have hmarked : ∀ literal, (literal, 0) ∈ ctx.trail.marked → model literal.atom = literal.positive :=
    fun literal hmark => hground literal (mem_ground_iff.2 hmark)
  refine ⟨fun key clause hhas => ?_, hmarked⟩
  cases key with
  | unit source literal =>
    obtain ⟨rfl, hunit⟩ := hhas
    exact satisfied_singleton.2 (hmarked literal (h source literal hunit))
  | stored source index =>
    obtain ⟨watched, hget, rfl⟩ := hhas
    exact hstored _ watched hget

theorem Resolvable.distinct (h : ctx.Resolvable clause) (hagrees : ctx.Agrees) :
    clause.atoms.Nodup :=
  h.proper.nodup.map_on fun _ ha _ hb => h.eq_of_atom hagrees ha hb

/-- A false clause with a single literal of the newest level has the shape of a learnt one. -/
theorem Resolvable.asserts (h : ctx.Resolvable learnt.clause) (hagrees : ctx.Agrees)
    (hlevel : 0 < ctx.trail.level)
    (hsingle : ctx.ofLevel ctx.trail.level learnt.clause = [learnt.asserted])
    (heq : learnt.level = ctx.assertionLevel learnt.asserted learnt.clause)
    (hentailed : ∀ model : Atom → Bool,
      (∀ key watched, ctx.clauses.get? key = some watched → Satisfied model watched.literals) →
      (∀ literal ∈ ctx.trail.ground, model literal.atom = literal.positive) →
        Satisfied model learnt.clause) : ctx.Asserts learnt := by
  have hnewest : ∀ literal, (literal ∈ learnt.clause ∧
      ctx.atoms.level? literal.atom = some ctx.trail.level) ↔ literal = learnt.asserted := by
    intro literal
    rw [← mem_ofLevel, hsingle, List.mem_singleton]
  have hmem : learnt.asserted ∈ learnt.clause := ((hnewest _).2 rfl).1
  have hatom : ∀ literal ∈ learnt.clause, literal ≠ learnt.asserted →
      literal.atom ≠ learnt.asserted.atom :=
    fun literal hliteral hne heq' => hne (h.eq_of_atom hagrees hliteral hmem heq')
  refine ⟨fun literal hliteral => ?_, h.distinct hagrees, fun literal hliteral hzero => ?_, hnewest,
    fun literal hliteral hne => ?_, ?_, heq ▸ assertionLevel_lt hagrees hlevel hsingle, hentailed⟩
  · obtain ⟨level, _, hmark⟩ := h.fails literal hliteral
    exact hagrees.fails_iff.2 ⟨level, hmark⟩
  · obtain ⟨level, hpos, hmark⟩ := h.fails literal hliteral
    have := (hagrees.level?_eq_zero_iff hmark).1 hzero
    omega
  · obtain ⟨level, _, hmark⟩ := h.fails literal hliteral
    have hlevel' := hagrees.level?_of_neg_mem hmark
    exact ⟨level, heq ▸ le_assertionLevel hliteral (hatom literal hliteral hne) hlevel', hlevel'⟩
  · by_cases hothers : ∃ other ∈ learnt.clause, other ≠ learnt.asserted
    · -- the level of another literal is not that of the ground, so neither is the greatest one
      obtain ⟨other, hother, hne⟩ := hothers
      obtain ⟨level, hpos, hmark⟩ := h.fails other hother
      have hle := le_assertionLevel hother (hatom other hother hne) (hagrees.level?_of_neg_mem hmark)
      obtain ⟨greatest, hgreatest, hne', hlevel'⟩ :=
        (assertionLevel_mem ctx learnt.asserted learnt.clause).resolve_left (by omega)
      exact Or.inr ⟨greatest, hgreatest, fun heq' => hne' (congrArg Literal.atom heq'), heq ▸ hlevel'⟩
    · have hclause : learnt.clause = [learnt.asserted] := by
        refine List.perm_singleton.1 ((List.perm_ext_iff_of_nodup h.proper.nodup
          (List.nodup_singleton _)).2 fun literal => ?_)
        rw [List.mem_singleton]
        exact ⟨fun hliteral => by_contra fun hne => hothers ⟨literal, hliteral, hne⟩,
          fun heq' => heq' ▸ hmem⟩
      refine Or.inl ⟨hclause, ?_⟩
      rw [heq, hclause]
      simp [assertionLevel]

variable [RandomSource ρ] [LawfulRandomSource ρ]

theorem Session.asserts (h : Session log (.learn key, ctx)) (hlevel : 0 < ctx.trail.level) :
    ∃ learnt, ctx.analyse key = .ok (.learnt learnt) ∧ ctx.Asserts learnt := by
  have hkept := h.kept
  have hagrees := hkept.intact.agrees
  obtain ⟨hnoted, hconflict⟩ := hkept.poised
  obtain ⟨watched, hget, hfails, _⟩ := hconflict.fails
  obtain ⟨learnt, hanalyse, hresolvable, hsingle, heq, hentailed⟩ :=
    analyse_keeps hkept.intact hkept.justified
      (P := fun clause => ∀ model, ctx.Upholds model → Satisfied model clause)
      (fun clause last place literals hclause hentailed hpivot model hmodel =>
        hclause.satisfied_resolve hagrees hmodel hpivot (hentailed model hmodel))
      hconflict hlevel hget fun model hmodel => hmodel.satisfied_merge hagrees hfails
        (hmodel.satisfied key watched.literals (ClauseStore.has_of_get? hget))
  exact ⟨learnt, hanalyse, hresolvable.asserts hagrees hlevel hsingle heq fun model hstored hground =>
    hentailed model (hnoted.upholds hstored hground)⟩

theorem Calls.conflict (h : Calls log (.propagate literal) ctx)
    (hrun : (propagate literal).run.run ctx = (.ok (some key), ctx')) (hlevel : 0 < ctx'.trail.level) :
    Session log (.learn key, ctx') := by
  cases h with
  | ground h =>
    obtain ⟨_, ⟨hground, hwaiting⟩ | ⟨hwaiting, hrest⟩⟩ := h.kept.poised
    · obtain ⟨news, hpropagated, _⟩ := ensures_ok (propagate_spec _ hwaiting) hrun
      exact absurd (hpropagated.level.trans hground) (Nat.ne_of_gt hlevel)
    · have hidle := ensures_ok (propagate_idle hwaiting (hrest literal List.mem_cons_self)) hrun
      exact absurd hidle.1 (by simp)
  | propagated h => simpa only [additions, List.append_nil] using h.move (.conflict hrun)

/-- Whenever a propagation ends in a conflict above the ground, its analysis returns an asserting
clause. -/
theorem Calls.asserting (h : Calls log (.propagate literal) ctx)
    (hrun : (propagate literal).run.run ctx = (.ok (some key), ctx')) (hlevel : 0 < ctx'.trail.level) :
    ∃ learnt, ctx'.analyse key = .ok (.learnt learnt) ∧ ctx'.Asserts learnt :=
  (h.conflict hrun hlevel).asserts hlevel

namespace Diamond

def clash : Context SplitMix := ((propagate ⟨0, true⟩).run.run decided).2

set_option maxRecDepth 100000 in
theorem run_propagate :
    (propagate ⟨0, true⟩).run.run decided = (.ok (some (.stored .problem 5)), clash) :=
  Prod.ext (by decide +kernel : _ = Except.ok (some (ClauseKey.stored .problem 5))) rfl

set_option maxRecDepth 100000 in
theorem level_clash_pos : 0 < clash.trail.level := by decide +kernel

end Diamond

theorem Calls.asserting_diamond :
    (∃ log, Calls log (.propagate ⟨0, true⟩) Diamond.decided) ∧
      (propagate ⟨0, true⟩).run.run Diamond.decided =
        (.ok (some (.stored .problem 5)), Diamond.clash) ∧
      0 < Diamond.clash.trail.level ∧
        ∃ learnt, Diamond.clash.analyse (.stored .problem 5) = .ok (.learnt learnt) ∧
          Diamond.clash.Asserts learnt := by
  obtain ⟨log, hsession⟩ := Diamond.session
  have hcall : Calls log (.propagate ⟨0, true⟩) Diamond.decided := .propagated hsession
  exact ⟨⟨log, hcall⟩, Diamond.run_propagate, Diamond.level_clash_pos,
    hcall.asserting Diamond.run_propagate Diamond.level_clash_pos⟩

end Satisfiability.Context
