import Mathlib.Order.Bounds.Basic
import Satisfiability.Proofs.Context.Asserting
import Satisfiability.Proofs.Context.Outside

/-!
# Two ways to the level of a backjump

The level that a search returns to for a clause is computed in two ways. For a clause from outside
one pass over its literals keeps the two highest levels (`backjumpLevel`); after an analysis it is
the greatest level among the literals on other atoms than that of the asserted one
(`assertionLevel`). Where a single literal is on the highest level both give the second highest one
(`backjumpLevel_exact`), in contexts that no search reaches too. What is learnt in a session is such
a clause (`Session.backjumpLevel_learnt`).
-/

namespace Satisfiability.Context

open Search

variable {ρ : Type} {ctx : Context ρ} {clause clause' : Clause} {asserted : Literal}
  {levels levels' : List Nat} {top top' second second' : Nat}

/-! ## The second highest level -/

/-- The highest of some levels, and the highest of those below it, or the ground if there are none.
-/
structure SecondHighest (levels : List Nat) (top second : Nat) : Prop where
  highest : IsGreatest {level | level ∈ levels} top
  next : IsGreatest {level | level ∈ levels ∧ level < top} second ∨
    (∀ level ∈ levels, level = top) ∧ second = 0

theorem SecondHighest.unique (h : SecondHighest levels top second)
    (h' : SecondHighest levels top' second') : top' = top ∧ second' = second := by
  obtain rfl := h.highest.unique h'.highest
  refine ⟨rfl, ?_⟩
  rcases h.next with hbelow | ⟨hall, hzero⟩ <;> rcases h'.next with hbelow' | ⟨hall', hzero'⟩
  · exact hbelow'.unique hbelow
  · exact absurd (hall' _ hbelow.1.1) (Nat.ne_of_lt hbelow.1.2)
  · exact absurd (hall _ hbelow'.1.1) (Nat.ne_of_lt hbelow'.1.2)
  · rw [hzero, hzero']

theorem SecondHighest.of_same (h : SecondHighest levels top second)
    (hsame : ∀ level, level ∈ levels' ↔ level ∈ levels) : SecondHighest levels' top second :=
  ⟨by simpa only [hsame] using h.highest, by simpa only [hsame] using h.next⟩

theorem TopLevels.Of.secondHighest {tops : TopLevels} (h : tops.Of levels) (hne : levels ≠ []) :
    ∃ top, SecondHighest levels top (tops.second.getD 0) := by
  obtain ⟨top, htop⟩ := Option.ne_none_iff_exists'.1 fun hnone => hne (h.none hnone)
  refine ⟨top, h.top top htop, ?_⟩
  rcases hsecond : tops.second with _ | below
  · -- the pass has met the top level only
    refine Or.inr ⟨fun level hlevel => ?_, rfl⟩
    exact Option.some.inj ((h.single hsecond level hlevel).symm.trans htop)
  · obtain ⟨hmem, ⟨top', htop', hlt⟩, hbelow⟩ := h.second below hsecond
    obtain rfl := Option.some.inj (htop.symm.trans htop')
    refine Or.inl ⟨⟨hmem, hlt⟩, fun level ⟨hlevel, hlower⟩ => ?_⟩
    refine (hbelow level hlevel).resolve_left fun heq => Nat.ne_of_lt hlower ?_
    exact Option.some.inj (heq.symm.trans htop)

/-! ## One pass over the literals -/

theorem level?_eq_none_iff {atom : Atom} :
    ctx.atoms.level? atom = none ↔ ctx.valuation atom = none := by
  simp [AtomTable.level?, valuation, AtomTable.valuation]

theorem topLevels?_eq_none_iff {tops : TopLevels} : ctx.topLevels? tops clause = none ↔
    ∃ literal ∈ clause, ctx.valuation literal.atom = none := by
  induction clause generalizing tops with
  | nil => simp [topLevels?]
  | cons first rest ih =>
    rw [topLevels?, List.exists_mem_cons_iff, ← level?_eq_none_iff]
    cases ctx.atoms.level? first.atom with
    | none => simp
    | some level => simpa using ih

theorem backjumpLevel_eq (hlength : 2 ≤ clause.length) :
    ctx.backjumpLevel clause = match ctx.topLevels? {} clause with
      | none => .error .backjump
      | some tops => .ok (tops.second.getD 0) :=
  match clause with
  | [] | [_] => absurd hlength (by simp)
  | _ :: _ :: _ => rfl

theorem backjumpLevel_eq_error_iff (hlength : 2 ≤ clause.length) :
    ctx.backjumpLevel clause = .error .backjump ↔
      ∃ literal ∈ clause, ctx.valuation literal.atom = none := by
  rw [backjumpLevel_eq hlength, ← topLevels?_eq_none_iff]
  cases ctx.topLevels? {} clause <;> simp

theorem levelsOf_ne_nil (hne : clause ≠ [])
    (hvalued : ∀ literal ∈ clause, ctx.valuation literal.atom ≠ none) : ctx.levelsOf clause ≠ [] := by
  obtain ⟨first, hfirst⟩ := List.exists_mem_of_ne_nil clause hne
  obtain ⟨level, hlevel⟩ := Option.ne_none_iff_exists'.1 fun hnone =>
    hvalued first hfirst (level?_eq_none_iff.1 hnone)
  exact List.ne_nil_of_mem (mem_levelsOf.2 ⟨first, hfirst, hlevel⟩)

theorem exists_backjumpLevel (hlength : 2 ≤ clause.length)
    (hvalued : ∀ literal ∈ clause, ctx.valuation literal.atom ≠ none) :
    ∃ top level, ctx.backjumpLevel clause = .ok level ∧
      SecondHighest (ctx.levelsOf clause) top level := by
  obtain ⟨tops, hrun, hof⟩ := topLevels?_spec TopLevels.of_nil fun literal hmem hnone =>
    hvalued literal hmem (level?_eq_none_iff.1 hnone)
  have hne : clause ≠ [] := List.ne_nil_of_length_pos (by omega)
  obtain ⟨top, hsecond⟩ := TopLevels.Of.secondHighest hof (levelsOf_ne_nil hne hvalued)
  exact ⟨top, _, by rw [backjumpLevel_eq hlength, hrun], hsecond⟩

theorem mem_levelsOf_of_perm (hperm : clause'.Perm clause) (level : Nat) :
    level ∈ ctx.levelsOf clause' ↔ level ∈ ctx.levelsOf clause :=
  (hperm.filterMap _).mem_iff

/-! ## The level after an analysis -/

theorem assertionLevel_le_of_above
    (hsub : ∀ literal ∈ clause, ctx.atoms.level? literal.atom ≠ some 0 → literal ∈ clause') :
    ctx.assertionLevel asserted clause ≤ ctx.assertionLevel asserted clause' := by
  rcases assertionLevel_mem ctx asserted clause with hzero | ⟨other, hother, hne, hlevel⟩
  · exact hzero ▸ Nat.zero_le _
  · -- the ground is below any level, so only a literal above it has to be found again
    rcases Nat.eq_zero_or_pos (ctx.assertionLevel asserted clause) with hzero | hpos
    · exact hzero ▸ Nat.zero_le _
    · refine le_assertionLevel (hsub other hother fun hground => ?_) hne hlevel
      exact Nat.ne_of_gt hpos (Option.some.inj (hlevel.symm.trans hground))

theorem assertionLevel_merge (ctx : Context ρ) (asserted : Literal) (clause : Clause) :
    ctx.assertionLevel asserted (ctx.merge none [] clause) = ctx.assertionLevel asserted clause := by
  apply Nat.le_antisymm
  · refine assertionLevel_le_of_above fun literal hmem _ => ?_
    exact ((mem_merge.1 hmem).resolve_left List.not_mem_nil).1
  · refine assertionLevel_le_of_above fun literal hmem hground => ?_
    exact mem_merge.2 (Or.inr ⟨hmem, Option.some_ne_none _, hground⟩)

theorem exists_level_eq_assertionLevel
    (hvalued : ∀ literal ∈ clause, ctx.valuation literal.atom ≠ none)
    (hother : ∃ other ∈ clause, other.atom ≠ asserted.atom) :
    ∃ other ∈ clause, other.atom ≠ asserted.atom ∧
      ctx.atoms.level? other.atom = some (ctx.assertionLevel asserted clause) := by
  rcases assertionLevel_mem ctx asserted clause with hzero | hmem
  · obtain ⟨other, hother, hne⟩ := hother
    obtain ⟨level, hlevel⟩ := Option.ne_none_iff_exists'.1 fun hnone =>
      hvalued other hother (level?_eq_none_iff.1 hnone)
    -- on the ground this is the level of every other literal
    have hle := le_assertionLevel hother hne hlevel
    have heq : level = ctx.assertionLevel asserted clause := by omega
    exact ⟨other, hother, hne, heq ▸ hlevel⟩
  · exact hmem

/-- With a single literal on the highest level, the greatest level among the others is the second
highest of all. -/
theorem secondHighest_assertionLevel
    (hvalued : ∀ literal ∈ clause, ctx.valuation literal.atom ≠ none)
    (htop : IsGreatest {level | level ∈ ctx.levelsOf clause} top)
    (hsingle : ∀ literal, literal ∈ ctx.ofLevel top clause ↔ literal = asserted) :
    SecondHighest (ctx.levelsOf clause) top (ctx.assertionLevel asserted clause) := by
  obtain ⟨_, hasserted⟩ := mem_ofLevel.1 ((hsingle asserted).2 rfl)
  -- on the atom of the asserted literal are just the literals of the highest level
  have hatom : ∀ other ∈ clause, ∀ level, ctx.atoms.level? other.atom = some level →
      (other.atom = asserted.atom ↔ level = top) := by
    intro other hother level hlevel
    constructor
    · intro heq
      exact Option.some.inj (hlevel.symm.trans (heq ▸ hasserted))
    · rintro rfl
      exact congrArg Literal.atom ((hsingle other).1 (mem_ofLevel.2 ⟨hother, hlevel⟩))
  refine ⟨htop, ?_⟩
  by_cases hothers : ∃ other ∈ clause, other.atom ≠ asserted.atom
  · obtain ⟨other, hother, hne, hlevel⟩ := exists_level_eq_assertionLevel hvalued hothers
    have hmem := mem_levelsOf.2 ⟨other, hother, hlevel⟩
    have hlower := fun heq => hne ((hatom other hother _ hlevel).2 heq)
    refine Or.inl ⟨⟨hmem, Nat.lt_of_le_of_ne (htop.2 hmem) hlower⟩, ?_⟩
    rintro level ⟨hmem', hlt⟩
    obtain ⟨other', hother', hlevel'⟩ := mem_levelsOf.1 hmem'
    refine le_assertionLevel hother' (fun heq => ?_) hlevel'
    exact Nat.ne_of_lt hlt ((hatom other' hother' level hlevel').1 heq)
  · have hall : ∀ other ∈ clause, other.atom = asserted.atom := fun other hother =>
      by_contra fun hne => hothers ⟨other, hother, hne⟩
    refine Or.inr ⟨fun level hmem => ?_, ?_⟩
    · obtain ⟨other, hother, hlevel⟩ := mem_levelsOf.1 hmem
      exact (hatom other hother level hlevel).1 (hall other hother)
    · refine (assertionLevel_mem ctx asserted clause).resolve_right ?_
      rintro ⟨other, hother, hne, _⟩
      exact hne (hall other hother)

theorem level_of_analyse {key : ClauseKey} {learnt : Asserting}
    (h : ctx.analyse key = .ok (.learnt learnt)) :
    learnt.level = ctx.assertionLevel learnt.asserted learnt.clause := by
  unfold analyse at h
  grind

theorem resolveWithin_of_single {level budget : Nat}
    (h : ctx.ofLevel level clause = [asserted]) (hbudget : 0 < budget) :
    ctx.resolveWithin level budget clause = .ok (clause, asserted) := by
  obtain ⟨budget, rfl⟩ := Nat.exists_eq_add_one_of_ne_zero (Nat.ne_of_gt hbudget)
  rw [resolveWithin, h]

theorem ofLevel_merge_of_single {level : Nat} (hlevel : 0 < level)
    (hsingle : ∀ literal, literal ∈ ctx.ofLevel level clause ↔ literal = asserted) :
    ctx.ofLevel level (ctx.merge none [] clause) = [asserted] := by
  -- the clause may hold its literal several times, the merged one does not
  have hnodup : (ctx.ofLevel level (ctx.merge none [] clause)).Nodup :=
    (nodup_merge List.nodup_nil).filter _
  refine List.perm_singleton.1 ((List.perm_ext_iff_of_nodup hnodup (List.nodup_singleton _)).2 ?_)
  intro literal
  rw [List.mem_singleton, ← hsingle, mem_ofLevel, mem_ofLevel, mem_merge]
  constructor
  · rintro ⟨hmem, hsome⟩
    exact ⟨(hmem.resolve_left List.not_mem_nil).1, hsome⟩
  · rintro ⟨hmem, hsome⟩
    refine ⟨Or.inr ⟨hmem, Option.some_ne_none _, fun hground => ?_⟩, hsome⟩
    exact Nat.ne_of_gt hlevel (Option.some.inj (hsome.symm.trans hground))

/-- The analysis of a clause with a single literal of the newest level needs no resolution. -/
theorem analyse_of_single {key : ClauseKey} (hliterals : ctx.clauses.literals? key = some clause)
    (hlevel : 0 < ctx.trail.level) (hdecision : ctx.trail.decision?.isSome = true)
    (hsingle : ∀ literal, literal ∈ ctx.ofLevel ctx.trail.level clause ↔ literal = asserted) :
    ctx.analyse key = .ok (.learnt
      ⟨ctx.merge none [] clause, asserted, ctx.assertionLevel asserted clause⟩) := by
  have hresolve := resolveWithin_of_single (ofLevel_merge_of_single hlevel hsingle)
    (Nat.zero_lt_of_lt (lt_roundBudget ctx.atoms.count))
  have hnone : ctx.trail.decision?.isNone = false := by simp [← Option.not_isSome, hdecision]
  simp only [analyse, Nat.ne_of_gt hlevel, if_false, hliterals, hnone, Bool.false_eq_true, hresolve,
    assertionLevel_merge]

theorem level_pos_of_decision? (h : ctx.trail.decision?.isSome = true) : 0 < ctx.trail.level := by
  rw [Trail.level, List.length_pos_iff]
  intro hnil
  simp [Trail.decision?, hnil] at h

/-! ## Both ways agree -/

/-- The level for a clause of several literals is missing only if one of them has no value.
Otherwise it is the second highest of their levels, in whatever order they stand. If the asserted
literal is the only one on the highest level, an analysis that ends in this clause gives the same
level, and so does one that begins with it on its highest level. -/
theorem backjumpLevel_exact (ctx : Context ρ) {clause : Clause} (hlength : 2 ≤ clause.length) :
    (ctx.backjumpLevel clause = .error .backjump ↔
      ∃ literal ∈ clause, ctx.valuation literal.atom = none) ∧
    ((∀ literal ∈ clause, ctx.valuation literal.atom ≠ none) → ∃ top level,
      SecondHighest (ctx.levelsOf clause) top level ∧
      (∀ reordered : Clause, reordered.Perm clause → ctx.backjumpLevel reordered = .ok level) ∧
      ∀ asserted, (∀ literal, literal ∈ ctx.ofLevel top clause ↔ literal = asserted) →
        ctx.assertionLevel asserted clause = level ∧
        (∀ key learnt, ctx.analyse key = .ok (.learnt learnt) → learnt.clause = clause →
          learnt.asserted = asserted → learnt.level = level) ∧
        ∀ key, ctx.clauses.literals? key = some clause → ctx.trail.level = top →
          ctx.trail.decision?.isSome = true →
            ctx.analyse key = .ok (.learnt ⟨ctx.merge none [] clause, asserted, level⟩)) := by
  refine ⟨backjumpLevel_eq_error_iff hlength, fun hvalued => ?_⟩
  obtain ⟨top, level, hrun, hsecond⟩ := exists_backjumpLevel hlength hvalued
  refine ⟨top, level, hsecond, fun reordered hperm => ?_, fun asserted hsingle => ?_⟩
  · obtain ⟨top', level', hrun', hsecond'⟩ := exists_backjumpLevel (hperm.length_eq ▸ hlength)
      fun literal hmem => hvalued literal (hperm.mem_iff.1 hmem)
    have hsame := hsecond'.of_same fun level => (mem_levelsOf_of_perm hperm level).symm
    rw [hrun', (hsecond.unique hsame).2]
  · obtain ⟨_, hlevel⟩ := hsecond.unique (secondHighest_assertionLevel hvalued hsecond.highest hsingle)
    refine ⟨hlevel, ?_, ?_⟩
    · rintro key learnt hanalyse rfl rfl
      exact (level_of_analyse hanalyse).trans hlevel
    · rintro key hliterals rfl hdecision
      have hpos := level_pos_of_decision? hdecision
      rw [analyse_of_single hliterals hpos hdecision hsingle, hlevel]

namespace Ladder

/-- A clause over atoms of the levels two, one, three, two and one. -/
def rungs : Clause := [⟨2, false⟩, ⟨0, false⟩, ⟨4, false⟩, ⟨3, false⟩, ⟨1, false⟩]

def climbed : Context SplitMix :=
  ((do
    discard (freshLiterals 5)
    discard (storeClause rungs .problem)
    openLevel
    record ⟨0, true⟩ none
    record ⟨1, true⟩ none
    openLevel
    record ⟨2, true⟩ none
    record ⟨3, true⟩ none
    openLevel
    record ⟨4, true⟩ none : Step (Context SplitMix) Unit).run.run (empty {} ⟨0⟩)).2

end Ladder

theorem backjumpLevel_exact_ladder :
    2 ≤ Ladder.rungs.length ∧
      (∀ literal ∈ Ladder.rungs, Ladder.climbed.valuation literal.atom ≠ none) ∧
      (∀ literal, literal ∈ Ladder.climbed.ofLevel 3 Ladder.rungs ↔ literal = ⟨4, false⟩) ∧
      Ladder.climbed.clauses.literals? (.stored .problem 0) = some Ladder.rungs ∧
      Ladder.climbed.trail.level = 3 ∧ Ladder.climbed.trail.decision?.isSome = true ∧
      SecondHighest (Ladder.climbed.levelsOf Ladder.rungs) 3 2 ∧
      (∀ reordered : Clause, reordered.Perm Ladder.rungs →
        Ladder.climbed.backjumpLevel reordered = .ok 2) ∧
      Ladder.climbed.assertionLevel ⟨4, false⟩ Ladder.rungs = 2 ∧
      Ladder.climbed.analyse (.stored .problem 0) =
        .ok (.learnt ⟨Ladder.rungs, ⟨4, false⟩, 2⟩) := by
  have hlength : 2 ≤ Ladder.rungs.length := by decide
  have hvalued : ∀ literal ∈ Ladder.rungs, Ladder.climbed.valuation literal.atom ≠ none := by
    decide +kernel
  have hsingle : Ladder.climbed.ofLevel 3 Ladder.rungs = [⟨4, false⟩] := by decide +kernel
  have hnewest : ∀ literal, literal ∈ Ladder.climbed.ofLevel 3 Ladder.rungs ↔
      literal = ⟨4, false⟩ := fun literal => hsingle ▸ List.mem_singleton
  have hstored : Ladder.climbed.clauses.literals? (.stored .problem 0) = some Ladder.rungs := by
    decide +kernel
  have hlevel : Ladder.climbed.trail.level = 3 := by decide +kernel
  have hdecision : Ladder.climbed.trail.decision?.isSome = true := by decide +kernel
  have hmerge : Ladder.climbed.merge none [] Ladder.rungs = Ladder.rungs := by decide +kernel
  obtain ⟨top, level, hsecond, hreordered, hasserted⟩ :=
    (backjumpLevel_exact Ladder.climbed hlength).2 hvalued
  -- the levels found are those of the atoms of the clause, in its order
  obtain ⟨rfl, rfl⟩ : top = 3 ∧ level = 2 := by
    have hlevels : Ladder.climbed.levelsOf Ladder.rungs = [2, 1, 3, 2, 1] := by decide +kernel
    rw [hlevels] at hsecond
    refine SecondHighest.unique ⟨?_, Or.inl ?_⟩ hsecond
    · exact ⟨by simp, by simp [upperBounds]⟩
    · exact ⟨by simp, by simp [upperBounds]⟩
  obtain ⟨hagrees, _, hanalysis⟩ := hasserted _ hnewest
  have hanalyse := hanalysis _ hstored hlevel hdecision
  rw [hmerge] at hanalyse
  exact ⟨hlength, hvalued, hnewest, hstored, hlevel, hdecision, hsecond, hreordered, hagrees,
    hanalyse⟩

/-- The level of an asserting clause is the one found in a pass over its literals. -/
theorem Asserts.backjumpLevel {learnt : Asserting} (h : ctx.Asserts learnt)
    (hlevel : learnt.level = ctx.assertionLevel learnt.asserted learnt.clause) :
    ctx.backjumpLevel learnt.clause = .ok learnt.level := by
  rcases h.level_mem with ⟨hunit, hzero⟩ | ⟨other, hother, hne, _⟩
  · rw [hunit, hzero]
    rfl
  obtain ⟨hasserted, hnewest⟩ := (h.newest learnt.asserted).2 rfl
  have hlength : 2 ≤ learnt.clause.length := by
    have hnodup : [other, learnt.asserted].Nodup := by simp [hne]
    exact hnodup.length_le_of_subset (by simp [hother, hasserted])
  have hvalued : ∀ literal ∈ learnt.clause, ctx.valuation literal.atom ≠ none := by
    intro literal hliteral hnone
    have hfails := h.fails literal hliteral
    simp [Valuation.status, hnone] at hfails
  have htop : IsGreatest {level | level ∈ ctx.levelsOf learnt.clause} ctx.trail.level := by
    refine ⟨mem_levelsOf.2 ⟨_, hasserted, hnewest⟩, fun level hmem => ?_⟩
    obtain ⟨literal, hliteral, hsome⟩ := mem_levelsOf.1 hmem
    -- the others have their values by the level that is returned to, which is a lower one
    by_cases heq : literal = learnt.asserted
    · rw [heq, hnewest, Option.some.injEq] at hsome
      exact Nat.le_of_eq hsome.symm
    · obtain ⟨lower, hle, hlower⟩ := h.level_le literal hliteral heq
      obtain rfl := Option.some.inj (hsome.symm.trans hlower)
      exact Nat.le_of_lt (Nat.lt_of_le_of_lt hle h.level_lt)
  obtain ⟨top, level, hrun, hsecond⟩ := exists_backjumpLevel hlength hvalued
  have hlast := secondHighest_assertionLevel hvalued htop fun literal =>
    mem_ofLevel.trans (h.newest literal)
  rw [hrun, hlevel, (hsecond.unique hlast).2]

variable [RandomSource ρ] [LawfulRandomSource ρ] {log : List (Source × Clause)} {key : ClauseKey}

theorem Session.backjumpLevel_learnt (h : Session log (.learn key, ctx))
    (hlevel : 0 < ctx.trail.level) : ∃ learnt, ctx.analyse key = .ok (.learnt learnt) ∧
      ctx.backjumpLevel learnt.clause = .ok learnt.level := by
  obtain ⟨learnt, hanalyse, hasserts⟩ := h.asserts hlevel
  exact ⟨learnt, hanalyse, hasserts.backjumpLevel (level_of_analyse hanalyse)⟩

end Satisfiability.Context
