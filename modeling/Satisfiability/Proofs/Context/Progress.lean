import Satisfiability.Proofs.Context.Asserting
import Satisfiability.Proofs.Context.Saturation
import Satisfiability.Proofs.Context.Steering

/-!
# Learning makes progress

When a level is opened each clause has a true literal, or two that are not false (`ClearBefore`),
and a clause stored later is on each level that is kept either true or has two such literals. That
does not change as long as the level stays open (`Session.clear`). A clause learnt from a conflict
is false with a single literal of the newest level, so it contains none of the clauses there are,
and none that was learnt before (`Session.learns_new`).
-/

namespace Satisfiability.Context

open Search Step Trail

variable {ρ : Type} {ctx ctx' : Context ρ} {log : List (Source × Clause)} {clause clause' : Clause}
  {marks marks' : List (Literal × Nat)} {level : Nat} {point point' : Phase × Context ρ}

/-- Before a level was opened the clause had a true literal, or two that were not false. -/
def ClearBefore (marks : List (Literal × Nat)) (level : Nat) (clause : Clause) : Prop :=
  (∃ literal ∈ clause, ∃ i < level, (literal, i) ∈ marks) ∨
    ∃ first ∈ clause, ∃ second ∈ clause, first ≠ second ∧
      ∀ i < level, (-first, i) ∉ marks ∧ (-second, i) ∉ marks

/-- The clauses of the log were clear before each level that is open. -/
def Clear (ctx : Context ρ) (log : List (Source × Clause)) : Prop :=
  ∀ entry ∈ log, ∀ level, 0 < level → level ≤ ctx.trail.level →
    ClearBefore ctx.trail.marked level entry.2

theorem ClearBefore.congr (h : ClearBefore marks level clause)
    (hbelow : ∀ literal, ∀ i < level, (literal, i) ∈ marks' ↔ (literal, i) ∈ marks) :
    ClearBefore marks' level clause := by
  rcases h with ⟨literal, hliteral, i, hi, hmark⟩ | ⟨first, hfirst, second, hsecond, hne, hopen⟩
  · exact Or.inl ⟨literal, hliteral, i, hi, (hbelow literal i hi).2 hmark⟩
  · refine Or.inr ⟨first, hfirst, second, hsecond, hne, fun i hi => ?_⟩
    rw [hbelow _ i hi, hbelow _ i hi]
    exact hopen i hi

theorem ClearBefore.perm (h : ClearBefore marks level clause) (hperm : clause.Perm clause') :
    ClearBefore marks level clause' := by
  simp only [ClearBefore, ← hperm.mem_iff]
  exact h

theorem ClearBefore.append {more : List (Literal × Nat)} (h : ClearBefore marks level clause)
    (hmore : ∀ mark ∈ more, level ≤ mark.2) : ClearBefore (marks ++ more) level clause := by
  refine h.congr fun literal i hi => ?_
  rw [List.mem_append]
  exact or_iff_left fun hmark => absurd (hmore _ hmark) (Nat.not_le_of_lt hi)

theorem ClearBefore.upTo {target : Nat} (h : ClearBefore marks level clause) (hle : level ≤ target) :
    ClearBefore (upTo target marks) level clause := by
  refine h.congr fun other i hi => ?_
  rw [mem_upTo]
  exact and_iff_left (Nat.le_trans (Nat.le_of_lt hi) hle)

theorem ClearBefore.forced {target : Nat} {literal : Literal} (h : ClearBefore marks level clause)
    (hle : level ≤ target) :
    ClearBefore (Trail.upTo target marks ++ [(literal, target)]) level clause := by
  refine (h.upTo hle).append fun mark hmark => ?_
  rw [List.mem_singleton.1 hmark]
  exact hle

theorem Settled.clearBefore (h : ctx.Settled)
    (hmem : clause ∈ ctx.clauses.problemClauses ++ ctx.clauses.additionClauses) :
    ClearBefore ctx.trail.marked (ctx.trail.level + 1) clause := by
  have hagrees := h.waiting.intact.agrees
  rcases h.saturates clause hmem with ⟨literal, hliteral, hholds⟩ |
    ⟨first, hfirst, second, hsecond, hne, hunvalued, hunvalued'⟩
  · obtain ⟨i, hmark⟩ := hagrees.holds_iff.1 hholds
    exact Or.inl ⟨literal, hliteral, i, Nat.lt_succ_of_le (level_le hmark), hmark⟩
  · have hnone : ∀ literal, ctx.valuation.status literal = .unvalued →
        ∀ i, (-literal, i) ∉ ctx.trail.marked := by
      intro literal hstatus i hmark
      rw [hagrees.fails_iff.2 ⟨i, hmark⟩] at hstatus
      exact absurd hstatus (by simp)
    exact Or.inr ⟨first, hfirst, second, hsecond, hne,
      fun i _ => ⟨hnone first hunvalued i, hnone second hunvalued' i⟩⟩

/-- The literals of a learnt clause that are false last are not false below the level it is stored
on. -/
theorem Asserts.clearBefore {learnt : Asserting} (h : ctx.Asserts learnt) (hagrees : ctx.Agrees)
    (hpos : 0 < level) (hle : level ≤ learnt.level) :
    ClearBefore ctx.trail.marked level learnt.clause := by
  obtain ⟨hmem, hnewest⟩ := (h.newest learnt.asserted).2 rfl
  rcases h.level_mem with ⟨_, hzero⟩ | ⟨other, hother, hne, hgreatest⟩
  · omega
  · refine Or.inr ⟨learnt.asserted, hmem, other, hother, hne.symm, fun i hi => ⟨?_, ?_⟩⟩
    · intro hmark
      have heq := Option.some.inj (hnewest.symm.trans (hagrees.level?_of_neg_mem hmark))
      have := h.level_lt
      omega
    · intro hmark
      have heq := Option.some.inj (hgreatest.symm.trans (hagrees.level?_of_neg_mem hmark))
      omega

/-- A clause that was clear before the newest level is not part of a clause learnt from a conflict.
-/
theorem Asserts.not_subset {learnt : Asserting} (h : ctx.Asserts learnt) (hagrees : ctx.Agrees)
    (hclear : ClearBefore ctx.trail.marked ctx.trail.level clause) : ¬ clause ⊆ learnt.clause := by
  intro hsubset
  rcases hclear with ⟨literal, hliteral, i, _, hmark⟩ | ⟨first, hfirst, second, hsecond, hne, hopen⟩
  · obtain ⟨j, hmark'⟩ := hagrees.fails_iff.1 (h.fails literal (hsubset hliteral))
    exact hagrees.not_both hmark hmark'
  · -- both literals are false, so both are of the newest level
    have hasserted : ∀ literal ∈ clause, (∀ i < ctx.trail.level, (-literal, i) ∉ ctx.trail.marked) →
        literal = learnt.asserted := by
      intro literal hliteral hbelow
      obtain ⟨j, hmark⟩ := hagrees.fails_iff.1 (h.fails literal (hsubset hliteral))
      have hnot : ¬ j < ctx.trail.level := fun hlt => hbelow j hlt hmark
      have hnewest : j = ctx.trail.level := Nat.le_antisymm (Trail.level_le hmark) (Nat.le_of_not_lt hnot)
      exact (h.newest literal).1 ⟨hsubset hliteral, hnewest ▸ hagrees.level?_of_neg_mem hmark⟩
    apply hne
    rw [hasserted first hfirst fun i hi => (hopen i hi).1,
      hasserted second hsecond fun i hi => (hopen i hi).2]

/-! ## Sessions -/

theorem mem_additions {phase : Phase} {entry : Source × Clause} (h : entry ∈ ctx.additions phase) :
    ∃ key learnt, phase = .learn key ∧ ctx.analyse key = .ok (.learnt learnt) ∧
      entry.2 = learnt.clause := by
  unfold additions at h
  split at h
  · rename_i key
    split at h
    · rename_i learnt hanalyse
      unfold logged at h
      split at h
      · exact ⟨key, learnt, rfl, hanalyse, by rw [List.mem_singleton.1 h]⟩
      · exact absurd h List.not_mem_nil
    · exact absurd h List.not_mem_nil
  · exact absurd h List.not_mem_nil

variable [RandomSource ρ]

/-- What a move does leaves clear what was clear, and when a level is opened all clauses are. -/
theorem Effect.clear (heffect : Effect point point') (h : Kept log point) (hclear : point.2.Clear log) :
    point'.2.Clear log := by
  intro entry hentry level hpos hle
  cases heffect with
  | @similar _ _ ctx ctx' state hsimilar _ =>
    change level ≤ ctx'.trail.level at hle
    change ClearBefore ctx'.trail.marked level entry.2
    rw [hsimilar.trail] at hle ⊢
    exact hclear entry hentry level hpos hle
  | @propagated _ _ ctx ctx' news state hnews _ =>
    change level ≤ ctx'.trail.level at hle
    change ClearBefore ctx'.trail.marked level entry.2
    rw [hnews.level] at hle
    rw [hnews.marked]
    refine (hclear entry hentry level hpos hle).append fun mark hmark => ?_
    obtain ⟨literal, _, rfl⟩ := List.mem_map.1 hmark
    exact hle
  | @opened ctx before ctx' literal hopens =>
    have hlevel : ctx'.trail.level = ctx.trail.level + 1 := by
      rw [hopens.decided.level, hopens.similar.trail]
    have hmarked : ctx'.trail.marked = ctx.trail.marked ++ [(literal, ctx.trail.level + 1)] := by
      rw [hopens.decided.marked, hopens.similar.trail]
    rw [hlevel] at hle
    rw [hmarked]
    -- for the level opened it is saturation that makes the clause clear
    refine ClearBefore.append ?_ fun mark hmark => ?_
    · rcases Nat.le_succ_iff.1 hle with hle | rfl
      · exact hclear entry hentry level hpos hle
      · obtain ⟨stored, hstored, hperm⟩ := h.accounted.records.stored hentry
        exact (Settled.clearBefore h.poised hstored).perm hperm
    · rw [List.mem_singleton.1 hmark]
      exact hle
  | @learnt ctx ctx' key clause asserted target hlower _ _ hlearnt =>
    -- what is forced after a return stands on the level returned to
    rw [hlearnt.level] at hle
    rw [hlearnt.marked]
    exact (hclear entry hentry level hpos (Nat.le_trans hle (Nat.le_of_lt hlower))).forced hle

variable [LawfulRandomSource ρ] {key : ClauseKey} {learnt : Asserting}

theorem Session.learns (h : Session log (.learn key, ctx))
    (hanalyse : ctx.analyse key = .ok (.learnt learnt)) (hmove : Move (.learn key, ctx) point') :
    point'.1 = .propagate learnt.asserted ∧
      ctx.Learnt learnt.clause learnt.asserted learnt.level point'.2 False := by
  have hkept := h.kept
  cases hmove with
  | learnt hrun =>
    obtain ⟨learnt', hanalyse', rfl, rfl, _, hlearnt⟩ :=
      ends_ok (learn_lesson hkept.intact hkept.poised.2) hrun
    cases hanalyse.symm.trans hanalyse'
    exact ⟨rfl, hlearnt⟩
  | refuted hrun =>
    obtain ⟨hground, _⟩ := ends_ok (learn_lesson hkept.intact hkept.poised.2) hrun
    exact absurd (level_pos_of_analyse hanalyse) (Nat.not_lt.2 (Nat.le_of_eq hground))

theorem Session.asserts_of_analyse (h : Session log (.learn key, ctx))
    (hanalyse : ctx.analyse key = .ok (.learnt learnt)) : ctx.Asserts learnt := by
  obtain ⟨learnt', hanalyse', hasserts⟩ := h.asserts (level_pos_of_analyse hanalyse)
  cases hanalyse.symm.trans hanalyse'
  exact hasserts

/-- At each point of a session the clauses stored were clear before each level that is open. -/
theorem Session.clear (h : Session log point) : point.2.Clear log := by
  induction h with
  | empty => exact fun entry hmem => absurd hmem List.not_mem_nil
  | atom h hrun ih =>
    obtain ⟨_, hwidened⟩ := ends_ok (freshAtom_spec h.kept.intact.agrees.coherent _) hrun
    simp only [Clear, hwidened.trail]
    exact ih
  | clause h hatoms hrun =>
    -- clauses are added on the ground
    have hground := h.kept.level_addClause hatoms hrun
    exact fun entry _ level hpos hle => absurd (Nat.lt_of_lt_of_le hpos hle) (by simp [hground])
  | @move _ point point' h hmove ih =>
    intro entry hentry
    rcases List.mem_append.1 hentry with hentry | hentry
    · exact (h.kept.effect hmove).clear h.kept ih entry hentry
    · -- a learnt clause is clear before each level that is kept
      obtain ⟨phase, ctx⟩ := point
      obtain ⟨key, learnt, rfl, hanalyse, hclause⟩ := mem_additions hentry
      obtain ⟨_, hlearnt⟩ := h.learns hanalyse hmove
      intro level hpos hle
      rw [hlearnt.level] at hle
      rw [hlearnt.marked, hclause]
      exact ((h.asserts_of_analyse hanalyse).clearBefore h.kept.intact.agrees hpos hle).forced hle
  | again _ ih => exact ih
  | refused h hatoms hrun ih =>
    have hsimilar := h.kept.similar_refused hatoms hrun
    simp only [Clear, hsimilar.trail]
    exact ih
  | @broken _ point _ ctx' h hbreaks ih =>
    obtain ⟨phase, ctx⟩ := point
    obtain ⟨key, target, rfl, hlower, before, hreturned, _, hrefused⟩ := h.kept.forgone hbreaks
    have htrail := hrefused.similar.trail
    intro entry hentry level hpos hle
    rw [htrail, hreturned.level] at hle
    rw [htrail, hreturned.marked]
    exact (ih entry hentry level hpos (Nat.le_trans hle (Nat.le_of_lt hlower))).upTo hle

theorem Session.not_subset (h : Session log (.learn key, ctx))
    (hanalyse : ctx.analyse key = .ok (.learnt learnt))
    (hmem : clause ∈ ctx.clauses.problemClauses ++ ctx.clauses.additionClauses) :
    ¬ clause ⊆ learnt.clause := by
  have hkept := h.kept
  have hlevel := level_pos_of_analyse hanalyse
  apply (h.asserts_of_analyse hanalyse).not_subset hkept.intact.agrees
  obtain ⟨key, hhas⟩ := ClauseStore.mem_clauses_iff.1 hmem
  cases key with
  | unit source literal =>
    -- a clause of one literal is true without a decision
    obtain ⟨rfl, hunit⟩ := hhas
    exact Or.inl ⟨literal, List.mem_cons_self, 0, hlevel, hkept.poised.1 source literal hunit⟩
  | stored source index =>
    obtain ⟨watched, hget, rfl⟩ := hhas
    obtain ⟨entry, hentry, hperm⟩ := hkept.accounted.records.logged hget
    exact (h.clear entry hentry _ hlevel (Nat.le_refl _)).perm hperm.symm

/-- A clause learnt from a conflict contains none of the clauses stored or noted so far, whether
they are of the problem or were learnt. So no clause that is learnt later on contains it. -/
theorem Session.learns_new (h : Session log (.learn key, ctx))
    (hanalyse : ctx.analyse key = .ok (.learnt learnt)) :
    (∀ clause ∈ ctx.clauses.problemClauses ++ ctx.clauses.additionClauses,
      ¬ clause ⊆ learnt.clause) ∧
    ∀ key' ctx' learnt', Relation.TransGen Move (.learn key, ctx) (.learn key', ctx') →
      ctx'.analyse key' = .ok (.learnt learnt') → ¬ learnt.clause ⊆ learnt'.clause := by
  refine ⟨fun clause => h.not_subset hanalyse, fun key' ctx' learnt' hmoves hanalyse' hsubset => ?_⟩
  obtain ⟨point, hmove, hrest⟩ := Relation.TransGen.head'_iff.1 hmoves
  obtain ⟨_, hsession⟩ := h.moves hmoves.to_reflTransGen
  -- the clause is among the additions from then on
  obtain ⟨_, hlearnt⟩ := h.learns hanalyse hmove
  obtain ⟨_, hextends, _⟩ := (h.kept.move hmove).moves hrest
  obtain ⟨addition, haddition, hperm⟩ := hextends.grows.added hlearnt.added
  exact hsession.not_subset hanalyse' (List.mem_append_right _ haddition)
    (List.Subset.trans hperm.subset hsubset)

namespace Diamond

def lesson : Asserting := ⟨[⟨3, false⟩], ⟨3, false⟩, 0⟩

set_option maxRecDepth 100000 in
theorem analyse_clash : clash.analyse (.stored .problem 5) = .ok (.learnt lesson) := by
  decide +kernel

end Diamond

theorem Session.learns_new_diamond :
    (∃ log, Session log (.learn (.stored .problem 5), Diamond.clash)) ∧
      Diamond.clash.analyse (.stored .problem 5) = .ok (.learnt Diamond.lesson) ∧
        (∀ clause ∈ Diamond.clash.clauses.problemClauses ++ Diamond.clash.clauses.additionClauses,
          ¬ clause ⊆ Diamond.lesson.clause) ∧
        ∀ key' ctx' learnt',
          Relation.TransGen Move (.learn (.stored .problem 5), Diamond.clash) (.learn key', ctx') →
            ctx'.analyse key' = .ok (.learnt learnt') → ¬ Diamond.lesson.clause ⊆ learnt'.clause := by
  obtain ⟨log, hdecided⟩ := Diamond.session
  have hsession := hdecided.move (.conflict Diamond.run_propagate)
  exact ⟨⟨_, hsession⟩, Diamond.analyse_clash, hsession.learns_new Diamond.analyse_clash⟩

end Satisfiability.Context
