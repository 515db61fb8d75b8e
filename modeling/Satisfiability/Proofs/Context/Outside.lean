import Satisfiability.Proofs.Context.Building
import Satisfiability.Proofs.Traversal

/-!
# Clauses from outside

A clause that need not be part of the problem can be given to a search while nothing waits. If all
its literals are false the search learns from it (`resolveConflict_ends`): a single literal of its
highest level is forced at the second highest one (`FalseUpTo.backjumpLevel`), and otherwise the
clause is stored, in conflict on its highest level (`Stored.inConflict`). If a literal is open, the
clause may be made the reason for it (`record_reason_spec`). The search is then as sound as the
clause.
-/

namespace Satisfiability.Context

open Search Step Trail

variable {ρ : Type} {ctx ctx' ctx'' ctx₁ : Context ρ} {clause : Clause} {literal : Literal}
  {key : ClauseKey} {top : Nat}

/-! ## The levels of a false clause -/

/-- All literals of the clause are false, the last ones of them on a level. -/
structure FalseUpTo (ctx : Context ρ) (clause : Clause) (top : Nat) : Prop where
  proper : ctx.Proper clause
  fails : ∀ literal ∈ clause, TrueBy ctx.trail.marked top (-literal)
  highest : ∃ literal ∈ clause, (-literal, top) ∈ ctx.trail.marked

theorem falseLevels?_spec (hagrees : ctx.Agrees) {levels : List Nat}
    (h : ctx.falseLevels? clause = some levels) :
    (∀ literal ∈ clause, ∃ level ∈ levels, (-literal, level) ∈ ctx.trail.marked) ∧
      ∀ level ∈ levels, ∃ literal ∈ clause, (-literal, level) ∈ ctx.trail.marked := by
  -- the levels are collected literal by literal
  induction clause generalizing levels with
  | nil =>
    cases h
    simp
  | cons first rest ih =>
    unfold falseLevels? at h ih
    rw [List.mapM_cons] at h
    obtain ⟨level, hfirst, h⟩ := Option.bind_eq_some_iff.1 h
    obtain ⟨others, hrest, h⟩ := Option.bind_eq_some_iff.1 h
    cases h
    split at hfirst
    · rename_i hstatus
      obtain ⟨level', hmark⟩ := hagrees.fails_iff.1 hstatus
      rw [hagrees.level?_of_neg_mem hmark, Option.getD_some] at hfirst
      cases hfirst
      obtain ⟨hlevels, hliterals⟩ := ih hrest
      constructor
      · refine List.forall_mem_cons.2 ⟨⟨level, List.mem_cons_self, hmark⟩, fun literal hmem => ?_⟩
        obtain ⟨other, hother, hmark'⟩ := hlevels literal hmem
        exact ⟨other, List.mem_cons_of_mem _ hother, hmark'⟩
      · refine List.forall_mem_cons.2 ⟨⟨first, List.mem_cons_self, hmark⟩, fun other hmem => ?_⟩
        obtain ⟨literal, hliteral, hmark'⟩ := hliterals other hmem
        exact ⟨literal, List.mem_cons_of_mem _ hliteral, hmark'⟩
    · exact absurd hfirst (by simp)

/-- The levels can be told of a clause whose literals are all false, and of no other one. -/
theorem exists_falseLevels?_iff : (∃ levels, ctx.falseLevels? clause = some levels) ↔
    ∀ literal ∈ clause, ctx.valuation.status literal = .fails := by
  unfold falseLevels?
  rw [exists_mapM_iff]
  refine forall₂_congr fun literal _ => ?_
  by_cases hfails : ctx.valuation.status literal = .fails <;> simp [hfails]

theorem not_fails_neg {valuation : Valuation} (h : valuation.status literal = .fails) :
    valuation.status (-literal) ≠ .fails := by
  unfold Valuation.status at h ⊢
  rw [Literal.atom_neg, Literal.positive_neg]
  rcases hvalue : valuation literal.atom with _ | value
  · rw [hvalue] at h
    cases h
  · rw [hvalue] at h
    cases value <;> cases hpositive : literal.positive <;> simp_all

/-- A false clause is no tautology, so it has a canonical form, whose levels can be told. -/
theorem exists_canonical_levels (h : ∀ literal ∈ clause, ctx.valuation.status literal = .fails) :
    ∃ canonical levels, clause.canonical? = some canonical ∧
      ctx.falseLevels? canonical = some levels := by
  rcases hcanonical : clause.canonical? with _ | canonical
  · obtain ⟨literal, hmem, hneg⟩ := Clause.canonical?_eq_none hcanonical
    exact absurd (h _ hneg) (not_fails_neg (h literal hmem))
  · obtain ⟨_, hsame⟩ := Clause.canonical?_eq_some hcanonical
    obtain ⟨levels, hlevels⟩ := exists_falseLevels?_iff.2 fun literal hmem =>
      h literal ((hsame literal).1 hmem)
    exact ⟨canonical, levels, rfl, hlevels⟩

theorem falseUpTo_of_falseLevels? (hagrees : ctx.Agrees) (hnodup : clause.Nodup) {levels : List Nat}
    (h : ctx.falseLevels? clause = some levels) (htop : levels.foldl max 0 ≠ 0) :
    ctx.FalseUpTo clause (levels.foldl max 0) := by
  obtain ⟨hlevels, hliterals⟩ := falseLevels?_spec hagrees h
  have hle := ((foldl_max_le levels 0).1 (Nat.le_refl _)).2
  refine ⟨⟨hnodup, fun literal hmem => ?_⟩, fun literal hmem => ?_, ?_⟩
  · obtain ⟨level, _, hmark⟩ := hlevels literal hmem
    exact Literal.atom_neg literal ▸ hagrees.atom_lt hmark
  · obtain ⟨level, hlevel, hmark⟩ := hlevels literal hmem
    exact ⟨level, hle level hlevel, hmark⟩
  · exact hliterals _ ((foldl_max_mem levels 0).resolve_left htop)

/-! ## The second highest level -/

structure TopLevels.Of (tops : TopLevels) (levels : List Nat) : Prop where
  none : tops.top = none → levels = []
  top : ∀ top, tops.top = some top → top ∈ levels ∧ ∀ level ∈ levels, level ≤ top
  single : tops.second = Option.none → ∀ level ∈ levels, tops.top = some level
  second : ∀ second, tops.second = some second → second ∈ levels ∧
    (∃ top, tops.top = some top ∧ second < top) ∧
      ∀ level ∈ levels, tops.top = some level ∨ level ≤ second

theorem TopLevels.of_nil : TopLevels.Of {} [] := by constructor <;> simp

theorem TopLevels.Of.add {tops : TopLevels} {levels : List Nat} (h : tops.Of levels) (level : Nat) :
    (tops.add level).Of (levels ++ [level]) := by
  obtain ⟨hnone, htop, hsingle, hsecond⟩ := h
  have hmem : ∀ other, other ∈ levels ++ [level] ↔ other ∈ levels ∨ other = level := by simp
  obtain ⟨top, second⟩ := tops
  unfold TopLevels.add
  cases top with
  | none => cases second <;> constructor <;> grind
  | some top =>
    dsimp only
    split
    · constructor <;> grind
    · split
      · constructor <;> grind
      · cases second with
        | none => constructor <;> grind
        | some below =>
          dsimp only
          split <;> constructor <;> grind

def levelsOf (ctx : Context ρ) (clause : Clause) : List Nat :=
  clause.filterMap fun literal => ctx.atoms.level? literal.atom

theorem mem_levelsOf {level : Nat} : level ∈ ctx.levelsOf clause ↔
    ∃ literal ∈ clause, ctx.atoms.level? literal.atom = some level :=
  List.mem_filterMap

theorem topLevels?_spec {tops : TopLevels} {levels : List Nat} (h : tops.Of levels)
    (hknown : ∀ literal ∈ clause, ctx.atoms.level? literal.atom ≠ none) :
    ∃ tops' : TopLevels, ctx.topLevels? tops clause = some tops' ∧
      tops'.Of (levels ++ ctx.levelsOf clause) := by
  induction clause generalizing tops levels with
  | nil => exact ⟨tops, rfl, by simpa [levelsOf] using h⟩
  | cons first rest ih =>
    obtain ⟨level, hlevel⟩ := Option.ne_none_iff_exists'.1 (hknown first List.mem_cons_self)
    obtain ⟨tops', hrun, hof⟩ :=
      ih (h.add level) fun literal hmem => hknown literal (List.mem_cons_of_mem _ hmem)
    refine ⟨tops', by rw [topLevels?, hlevel]; exact hrun, ?_⟩
    rw [show ctx.levelsOf (first :: rest) = level :: ctx.levelsOf rest from
      List.filterMap_cons_some hlevel]
    rwa [List.append_assoc] at hof

theorem TopLevels.Of.second_lt {tops : TopLevels} {levels : List Nat} (h : tops.Of levels)
    (htops : tops.top = some top) (htop : 0 < top) : tops.second.getD 0 < top := by
  cases hsecond : tops.second with
  | none => exact htop
  | some below =>
    obtain ⟨_, ⟨t, ht, hlt⟩, _⟩ := h.second below hsecond
    rw [htops] at ht
    cases ht
    exact hlt

theorem TopLevels.Of.second_mem {tops : TopLevels} {levels : List Nat} (h : tops.Of levels) :
    tops.second.getD 0 = 0 ∨ tops.second.getD 0 ∈ levels := by
  cases hsecond : tops.second with
  | none => exact Or.inl rfl
  | some below => exact Or.inr (h.second below hsecond).1

theorem TopLevels.Of.le_second {tops : TopLevels} {levels : List Nat} (h : tops.Of levels)
    (htops : tops.top = some top) {level : Nat} (hmem : level ∈ levels) (hne : level ≠ top) :
    level ≤ tops.second.getD 0 := by
  have hnot : tops.top ≠ some level := fun heq => hne (Option.some.inj (heq.symm.trans htops))
  cases hsecond : tops.second with
  | none => exact absurd (h.single hsecond level hmem) hnot
  | some below => exact ((h.second below hsecond).2.2 level hmem).resolve_left hnot

section levels

variable (h : ctx.FalseUpTo clause top) (hagrees : ctx.Agrees)

include h hagrees

theorem FalseUpTo.level (hmem : literal ∈ clause) : ∃ level ≤ top,
    (-literal, level) ∈ ctx.trail.marked ∧ ctx.atoms.level? literal.atom = some level := by
  obtain ⟨level, hle, hmark⟩ := h.fails literal hmem
  exact ⟨level, hle, hmark, hagrees.level?_of_neg_mem hmark⟩

omit hagrees in
theorem FalseUpTo.le_level : top ≤ ctx.trail.level := by
  obtain ⟨_, _, hmark⟩ := h.highest
  exact level_le hmark

theorem FalseUpTo.top_mem_levelsOf : top ∈ ctx.levelsOf clause := by
  obtain ⟨literal, hmem, hmark⟩ := h.highest
  exact mem_levelsOf.2 ⟨literal, hmem, hagrees.level?_of_neg_mem hmark⟩

theorem FalseUpTo.top_eq {tops : TopLevels} (hof : tops.Of (ctx.levelsOf clause)) :
    tops.top = some top := by
  have htop := h.top_mem_levelsOf hagrees
  cases hcase : tops.top with
  | none => exact absurd (hof.none hcase ▸ htop) List.not_mem_nil
  | some t =>
    obtain ⟨ht, hle⟩ := hof.top t hcase
    obtain ⟨literal, hmem, hsome⟩ := mem_levelsOf.1 ht
    obtain ⟨level, hlevel, _, hlevel'⟩ := h.level hagrees hmem
    rw [hsome, Option.some.injEq] at hlevel'
    rw [Nat.le_antisymm (hlevel' ▸ hlevel) (hle top htop)]

/-- A clause false up to a level, of which it has a single literal, forces that literal where the
others are false. -/
theorem FalseUpTo.backjumpLevel (htop : 0 < top) {asserted : Literal}
    (hsingle : ctx.ofLevel top clause = [asserted]) :
    ∃ target, ctx.backjumpLevel clause = .ok target ∧
      ctx.Assertable clause asserted target ∧ ctx.ForcedBy clause asserted target := by
  obtain ⟨hasserted, habove⟩ := mem_ofLevel.1 (hsingle ▸ List.mem_cons_self :
    asserted ∈ ctx.ofLevel top clause)
  have hother : ∀ literal ∈ clause, ctx.atoms.level? literal.atom = some top → literal = asserted := by
    intro literal hliteral hlevel
    have := mem_ofLevel.2 ⟨hliteral, hlevel⟩
    rwa [hsingle, List.mem_singleton] at this
  match clause with
  | [] => exact absurd hasserted List.not_mem_nil
  | [only] =>
    obtain rfl : asserted = only := List.mem_singleton.1 hasserted
    exact ⟨0, rfl, ⟨h.proper, hasserted, ⟨top, habove, htop⟩, fun _ => rfl, Or.inl rfl⟩,
      fun other hmem hne => absurd (List.mem_singleton.1 hmem) hne⟩
  | first :: second :: rest =>
    obtain ⟨tops, hrun, hof⟩ := topLevels?_spec TopLevels.of_nil fun literal hmem => by
      obtain ⟨level, _, _, hlevel⟩ := h.level hagrees hmem
      exact Option.ne_none_iff_exists'.2 ⟨level, hlevel⟩
    rw [List.nil_append] at hof
    -- the asserted literal alone has the greatest level, so the second level is below it
    have htops := h.top_eq hagrees hof
    have hlt := hof.second_lt htops htop
    refine ⟨tops.second.getD 0, by simp only [Context.backjumpLevel, hrun],
      ⟨h.proper, hasserted, ⟨top, habove, hlt⟩, by simp, hof.second_mem.imp_right fun hmem => ?_⟩,
      fun other hmem hne => ?_⟩
    · obtain ⟨other, hother, hlevel⟩ := mem_levelsOf.1 hmem
      refine ⟨other, hother, fun heq => ?_, hlevel⟩
      rw [heq, habove, Option.some.injEq] at hlevel
      exact Nat.ne_of_gt hlt hlevel
    obtain ⟨level, _, hmark, hlevel⟩ := h.level hagrees hmem
    have hlower : level ≠ top := fun heq => hne (hother other hmem (heq ▸ hlevel))
    exact ⟨level, hof.le_second htops (mem_levelsOf.2 ⟨other, hmem, hlevel⟩) hlower, hmark⟩

end levels

/-! ## False clauses stored -/

theorem FalseUpTo.exists_other (h : ctx.FalseUpTo clause ctx.trail.level) (hagrees : ctx.Agrees)
    (hseveral : ∀ asserted, ctx.ofLevel ctx.trail.level clause ≠ [asserted]) (first : Literal) :
    ∃ other ∈ ctx.ofLevel ctx.trail.level clause, other ≠ first := by
  obtain ⟨x, hx, hmark⟩ := h.highest
  have hmem : x ∈ ctx.ofLevel ctx.trail.level clause :=
    mem_ofLevel.2 ⟨hx, hagrees.level?_of_neg_mem hmark⟩
  have hnodup : (ctx.ofLevel ctx.trail.level clause).Nodup := h.proper.nodup.filter _
  rcases hcurrent : ctx.ofLevel ctx.trail.level clause with _ | ⟨a, _ | ⟨b, rest⟩⟩
  · rw [hcurrent] at hmem
    exact absurd hmem List.not_mem_nil
  · exact absurd hcurrent (hseveral a)
  · rw [hcurrent] at hnodup
    by_cases ha : a = first
    · refine ⟨b, by simp, fun hb => ?_⟩
      rw [ha, hb] at hnodup
      simp at hnodup
    · exact ⟨a, by simp, ha⟩

theorem FalseUpTo.two_le_length (h : ctx.FalseUpTo clause ctx.trail.level) (hagrees : ctx.Agrees)
    (hseveral : ∀ asserted, ctx.ofLevel ctx.trail.level clause ≠ [asserted]) : 2 ≤ clause.length := by
  obtain ⟨x, hx, _⟩ := h.highest
  obtain ⟨y, hy, hne⟩ := h.exists_other hagrees hseveral x
  have hnodup : [x, y].Nodup := by simp [Ne.symm hne]
  exact hnodup.length_le_of_subset (by simp [hx, (mem_ofLevel.1 hy).1])

/-- What stands before a literal of the newest level in watch order is of that level too. -/
theorem newest_of_before (hagrees : ctx.Agrees) {x y : Literal}
    (hbefore : ∀ level, (-x, level) ∈ ctx.trail.marked → TrueBy ctx.trail.marked level (-y))
    (hx : ∃ level, (-x, level) ∈ ctx.trail.marked)
    (hy : (-y, ctx.trail.level) ∈ ctx.trail.marked) : (-x, ctx.trail.level) ∈ ctx.trail.marked := by
  obtain ⟨level, hmark⟩ := hx
  obtain ⟨lower, hlower, hmark'⟩ := hbefore level hmark
  have hnewest : lower = ctx.trail.level := (hagrees.unique_mem hmark' hy rfl).2
  have hle : level ≤ ctx.trail.level := level_le hmark
  have heq : level = ctx.trail.level := by omega
  exact heq ▸ hmark

/-- Of a false clause in watch order with two literals of the newest level, these come first. -/
theorem FalseUpTo.watches_newest (h : ctx.FalseUpTo clause ctx.trail.level) (hagrees : ctx.Agrees)
    (hseveral : ∀ asserted, ctx.ofLevel ctx.trail.level clause ≠ [asserted]) {watched : WatchedClause}
    (hwatched : watched.literals = ctx.watchOrder clause) :
    (-watched.first, ctx.trail.level) ∈ ctx.trail.marked ∧
      (-watched.second, ctx.trail.level) ∈ ctx.trail.marked := by
  have hsorted := pairwise_watchOrder hagrees clause
  have hperm := perm_watchOrder ctx clause
  rw [← hwatched] at hsorted hperm
  unfold WatchedClause.literals at hsorted hperm
  have hfalse : ∀ literal ∈ watched.first :: watched.second :: watched.others,
      ∃ level, (-literal, level) ∈ ctx.trail.marked := fun literal hmem =>
    let ⟨level, _, hmark⟩ := h.fails literal (hperm.mem_iff.1 hmem)
    ⟨level, hmark⟩
  obtain ⟨hfirst, hrest⟩ := List.pairwise_cons.1 hsorted
  -- the order puts literals of the newest level first, and there are at least two of them
  constructor
  · obtain ⟨x, hx, hmark⟩ := h.highest
    rcases List.mem_cons.1 (hperm.mem_iff.2 hx) with rfl | hbehind
    · exact hmark
    · exact newest_of_before hagrees (hfirst x hbehind) (hfalse _ List.mem_cons_self) hmark
  · obtain ⟨y, hy, hne⟩ := h.exists_other hagrees hseveral watched.first
    obtain ⟨hy, hlevel⟩ := mem_ofLevel.1 hy
    obtain ⟨level, _, hmark, hlevel'⟩ := h.level hagrees hy
    rw [hlevel, Option.some.injEq] at hlevel'
    rw [← hlevel'] at hmark
    rcases List.mem_cons.1 ((List.mem_cons.1 (hperm.mem_iff.2 hy)).resolve_left hne) with
      rfl | hbehind
    · exact hmark
    · exact newest_of_before hagrees ((List.pairwise_cons.1 hrest).1 y hbehind)
        (hfalse _ (List.mem_cons_of_mem _ List.mem_cons_self)) hmark

/-- A false clause with two literals of the newest level is in conflict when it is stored. -/
theorem Stored.inConflict {source : Source} (hstored : ctx.Stored clause source key ctx')
    (hagrees : ctx.Agrees)
    {late : Prop} (hguarded : ctx.Guarded (fun _ _ => False) late)
    (h : ctx.FalseUpTo clause ctx.trail.level)
    (hseveral : ∀ asserted, ctx.ofLevel ctx.trail.level clause ≠ [asserted]) :
    ctx'.InConflict key late := by
  obtain ⟨watched, hliterals, hget⟩ := hstored.get?
  have hperm := perm_watchOrder ctx clause
  rw [← hliterals] at hperm
  refine ⟨⟨watched, by rw [hget, if_pos rfl], fun literal hmem => ?_, ?_⟩, ?_⟩
  · obtain ⟨level, _, hmark⟩ := h.fails literal (hperm.mem_iff.1 hmem)
    rw [hstored.trail]
    exact ⟨level, hmark⟩
  · obtain ⟨literal, hmem, hmark⟩ := h.highest
    rw [hstored.trail]
    exact ⟨literal, hperm.mem_iff.2 hmem, hmark⟩
  · rw [hstored.trail]
    refine hstored.guarded_of_pending (hguarded.mono fun _ _ hfalse => hfalse.elim) ?_
    intro turned hturned
    obtain ⟨hfirst, hsecond⟩ := h.watches_newest hagrees hseveral hturned
    exact ⟨fun _ _ => hfirst, fun _ _ => hsecond⟩

section returned

variable (h : ctx.FalseUpTo clause top) (hagrees : ctx.Agrees) (hreturned : ctx.Returned top ctx')

include h hagrees hreturned

theorem FalseUpTo.mark_of_returned (hmem : literal ∈ clause) {level : Nat}
    (hmark : (-literal, level) ∈ ctx.trail.marked) : (-literal, level) ∈ ctx'.trail.marked := by
  obtain ⟨level', hle, hmark'⟩ := h.fails literal hmem
  rw [hreturned.marked, (hagrees.unique_mem hmark hmark' rfl).2]
  exact mem_upTo.2 ⟨hmark', hle⟩

theorem FalseUpTo.of_returned : ctx'.FalseUpTo clause ctx'.trail.level := by
  have hcount : ctx'.atoms.count = ctx.atoms.count := hreturned.extends.count
  rw [hreturned.level]
  refine ⟨⟨h.proper.nodup, hcount ▸ h.proper.atoms⟩, fun literal hmem => ?_, ?_⟩
  · obtain ⟨level, hle, hmark⟩ := h.fails literal hmem
    exact ⟨level, hle, h.mark_of_returned hagrees hreturned hmem hmark⟩
  · obtain ⟨literal, hmem, hmark⟩ := h.highest
    exact ⟨literal, hmem, h.mark_of_returned hagrees hreturned hmem hmark⟩

theorem FalseUpTo.ofLevel_of_returned :
    ctx'.ofLevel ctx'.trail.level clause = ctx.ofLevel top clause := by
  rw [hreturned.level]
  refine List.filter_congr fun literal hmem => ?_
  obtain ⟨level, _, hmark, hlevel⟩ := h.level hagrees hmem
  rw [hlevel, hreturned.agrees.level?_of_neg_mem (h.mark_of_returned hagrees hreturned hmem hmark)]

end returned

/-! ## Learning from a false clause -/

def Within (M : (Atom → Bool) → Prop) (clause : Clause) (model : Atom → Bool) : Prop :=
  M model ∧ Satisfied model clause

theorem Sound.within {M : (Atom → Bool) → Prop} (h : ctx.Sound M) (clause : Clause) :
    ctx.Sound (Within M clause) :=
  h.mono fun _ => And.left

theorem Sound.within_congr {M : (Atom → Bool) → Prop} {clause' : Clause} (h : ctx.Sound (Within M clause))
    (hsame : ∀ literal, literal ∈ clause ↔ literal ∈ clause') : ctx.Sound (Within M clause') :=
  h.mono fun _ hmodel => ⟨hmodel.1, hmodel.2.subset fun literal => (hsame literal).2⟩

/-- What comes of learning: the search goes on with nothing waiting, and the jumps tell the level
reached, or else the problem is refuted. -/
structure Progressed (ctx : Context ρ) (learning : Learning) (ctx' : Context ρ) : Prop where
  refuted : learning.consistent = false → ctx'.state = .unsatisfiable
  advanced : learning.consistent = true → ctx.Advanced ctx'
  waiting : learning.consistent = true → ctx'.Waiting []
  jumps : learning.consistent = true → learning.jumps.min? =
    if ctx'.trail.level = ctx.trail.level then none else some ctx'.trail.level

/-- What comes of learning from a clause: the search is as sound as the clause. -/
structure Resolved (ctx : Context ρ) (clause : Clause) (learning : Learning) (ctx' : Context ρ) :
    Prop extends Progressed ctx learning ctx' where
  sound : ∀ M, ctx.Sound M → ctx'.Sound (Within M clause)

theorem Outcome.progressed {learning : Learning} (h : ctx'.Outcome ctx.trail.level learning ctx'')
    (hadvanced : ctx.Advanced ctx') : ctx.Progressed learning ctx'' := by
  obtain ⟨consistent, jumps⟩ := learning
  cases consistent with
  | false => exact ⟨fun _ => h.1, by simp, by simp, by simp⟩
  | true =>
    obtain ⟨hcontinued, hwaiting, hmin⟩ := h
    exact ⟨by simp, fun _ => hadvanced.trans hcontinued.toAdvanced, fun _ => hwaiting, fun _ => hmin⟩

theorem Outcome.sound {start : Nat} {learning : Learning} (h : ctx.Outcome start learning ctx')
    {M : (Atom → Bool) → Prop} (hM : ctx.Sound M) : ctx'.Sound M := by
  obtain ⟨consistent, jumps⟩ := learning
  cases consistent with
  | false => exact h.2 M hM
  | true => exact h.1.sound M hM

theorem Outcome.resolved {learning : Learning} (h : ctx'.Outcome ctx.trail.level learning ctx'')
    (hadvanced : ctx.Advanced ctx') (hsound : ∀ M, ctx.Sound M → ctx'.Sound (Within M clause)) :
    ctx.Resolved clause learning ctx'' :=
  ⟨h.progressed hadvanced, fun M hM => h.sound (hsound M hM)⟩

theorem Resolved.congr {clause' : Clause} {learning : Learning}
    (h : ctx.Resolved clause learning ctx') (hsame : ∀ literal, literal ∈ clause ↔ literal ∈ clause') :
    ctx.Resolved clause' learning ctx' :=
  ⟨h.toProgressed, fun M hM => (h.sound M hM).within_congr hsame⟩

theorem resolved_of_ground (hfalse : ∀ literal ∈ clause, (-literal, 0) ∈ ctx.trail.marked)
    (jumps : List Nat) : ctx.Resolved clause ⟨false, jumps⟩ (ctx.withState .unsatisfiable) :=
  ⟨⟨fun _ => rfl, by simp, by simp, by simp⟩, fun _ hM => (hM.within clause).withState fun _ =>
    (hM.within clause).no_model (fun _ => And.right) hfalse⟩

/-- What comes of learning from a false clause: if the search goes on, then from a lower level. -/
structure Lowered (ctx : Context ρ) (clause : Clause) (learning : Learning) (ctx' : Context ρ) :
    Prop extends Resolved ctx clause learning ctx' where
  lower : learning.consistent = true → ctx'.trail.level < ctx.trail.level

theorem Outcome.lowered {learning : Learning} (h : ctx'.Outcome ctx.trail.level learning ctx'')
    (hadvanced : ctx.Advanced ctx') (hlevel : ctx'.trail.level < ctx.trail.level)
    (hsound : ∀ M, ctx.Sound M → ctx'.Sound (Within M clause)) : ctx.Lowered clause learning ctx'' := by
  refine ⟨h.resolved hadvanced hsound, fun hconsistent => ?_⟩
  obtain ⟨consistent, jumps⟩ := learning
  obtain rfl : consistent = true := hconsistent
  exact Nat.lt_of_le_of_lt h.1.level hlevel

theorem Lowered.congr {clause' : Clause} {learning : Learning} (h : ctx.Lowered clause learning ctx')
    (hsame : ∀ literal, literal ∈ clause ↔ literal ∈ clause') : ctx.Lowered clause' learning ctx' :=
  ⟨h.toResolved.congr hsame, h.lower⟩

theorem Resolved.lowered {jumps : List Nat} (h : ctx.Resolved clause ⟨false, jumps⟩ ctx') :
    ctx.Lowered clause ⟨false, jumps⟩ ctx' := ⟨h, by simp⟩

/-- A fault after the first steps is one of a search that was not in order before them, unless no
number is left for a clause. -/
theorem fails_of_sound {fault : Fault} (h : ctx'.Stuck ctx'' ∨ ctx'.Exhausted fault ctx'')
    (hsound : ∀ M, ctx.Sound M → ctx'.Sound (Within M clause)) :
    ctx.Stuck ctx'' ∨ StorageExhausted .addition fault ctx'' :=
  h.imp (fun hstuck => hstuck.of_justified fun hbefore => (hsound _ hbefore.sound).justified)
    Exhausted.toStorageExhausted

/-- A return, a clause stored and another learnt from it take the search to a lower level. -/
theorem Learnt.advanced_of_stored {clause' : Clause} {asserted : Literal} {target : Nat}
    (hlearnt : ctx''.Learnt clause' asserted target ctx₁) {source : Source}
    (hstored : ctx'.Stored clause source key ctx'')
    (hreturned : ctx.Returned top ctx') (hle : top ≤ ctx.trail.level) (htarget : target < top) :
    ctx₁.trail.level < ctx.trail.level ∧ ctx.Advanced ctx₁ := by
  have hbelow : ctx₁.trail.level < ctx.trail.level := by
    rw [hlearnt.level]
    exact Nat.lt_of_lt_of_le htarget hle
  refine ⟨hbelow, (hreturned.extends.trans hstored.extends).trans hlearnt.extension, ?_,
    Nat.le_of_lt hbelow, [asserted], ?_, by simp⟩
  · rw [hlearnt.state, hstored.state, hreturned.same.state]
  · rw [hlearnt.marked, hstored.trail, hreturned.marked, hlearnt.level,
      upTo_upTo (Nat.le_of_lt htarget)]
    rfl

section learning

variable (h : ctx.Waiting []) (hfalse : ctx.FalseUpTo clause top)

include h hfalse

theorem resolve_single_ends (htop : 0 < top) {asserted : Literal}
    (hsingle : ctx.ofLevel top clause = [asserted]) :
    Ends (do
        countConflict
        match ctx.backjumpLevel clause with
        | .error fault => throw fault
        | .ok level =>
          discard (backtrack clause asserted level)
          propagateLearning asserted [(← get).trail.level] : Step (Context ρ) Learning) ctx
      (fun learning ctx' => ctx.Lowered clause learning ctx')
      fun fault ctx' => ctx.Stuck ctx' ∨ StorageExhausted .addition fault ctx' := by
  have hagrees := h.intact.agrees
  have hcounted := similar_withConflict hagrees.coherent
  obtain ⟨target, hlevel, hassertable, hforced⟩ := hfalse.backjumpLevel hagrees htop hsingle
  have htarget := hassertable.target_lt hagrees
  simp only [hlevel, countConflict, ends_bind, ends_modify, ends_discard, ends_get]
  refine ends_mono (backtrack_spec (hcounted.intact h.intact) hassertable.withConflict
    (hcounted.guarded h.guarded) fun _ _ _ hpending => absurd hpending List.not_mem_nil) ?_
      fun _ _ hforgone => Or.inr hforgone.2.exhausted.toStorageExhausted
  intro _ ctx₁ hlearnt
  have hlearnt' := hlearnt.of_withConflict hagrees.coherent
  have hsound : ∀ M, ctx.Sound M → ctx₁.Sound (Within M clause) := fun M hM =>
    hlearnt'.sound _ (hM.within clause) hforced fun _ => And.right
  -- the return goes below the level at which the clause was false
  have hbelow : ctx₁.trail.level < ctx.trail.level := hlearnt.level ▸ htarget
  refine ends_mono (propagateLearning_ends ctx.trail.level _ hlearnt.waiting ?_ ?_)
    (fun learning ctx₂ houtcome => houtcome.lowered (hlearnt'.advanced htarget) hbelow hsound)
    fun _ _ hfails => fails_of_sound hfails hsound
  · rw [hlearnt.level]
    exact Nat.le_of_lt htarget
  · rw [hlearnt.level, if_neg (Nat.ne_of_lt htarget)]
    rfl

theorem resolve_stored_ends (hseveral : ∀ asserted, ctx.ofLevel top clause ≠ [asserted])
    (hreturned : ctx.Returned top ctx') {jumps : List Nat} (hjumps : ∀ jump ∈ jumps, top ≤ jump) :
    Ends (do
        let key ← storeClause clause .addition
        match ← learn key with
        | none => return ⟨false, jumps⟩
        | some (asserted, level) => propagateLearning asserted (jumps ++ [level]) :
          Step (Context ρ) Learning) ctx'
      (fun learning ctx'' => ctx.Lowered clause learning ctx'')
      fun fault ctx'' => ctx.Stuck ctx'' ∨ StorageExhausted .addition fault ctx'' := by
  have hagrees := h.intact.agrees
  have hintact := hreturned.intact h.intact
  have hguarded := hreturned.guarded h.guarded fun _ _ _ hpending =>
    absurd hpending List.not_mem_nil
  have hfalse' := hfalse.of_returned hagrees hreturned
  have hlevels := hfalse.ofLevel_of_returned hagrees hreturned
  have hlength := hfalse'.two_le_length hreturned.agrees (hlevels ▸ hseveral)
  rw [ends_bind]
  refine ends_mono (storeClause_spec hreturned.agrees hintact.exact hfalse.proper.nodup
    hfalse'.proper.atoms hlength .addition) ?_ fun _ _ hrefused => Or.inr hrefused.toStorageExhausted
  intro key ctx₁ hstored
  have hconflict := hstored.inConflict hreturned.agrees hguarded hfalse' (hlevels ▸ hseveral)
  have hsound : ∀ M, ctx.Sound M → ctx₁.Sound (Within M clause) := fun M hM =>
    hstored.sound (hreturned.sound (hM.within clause)) fun _ => And.right
  rw [ends_bind]
  refine ends_mono (learn_ends (hstored.intact hintact) hconflict) ?_
    fun _ _ hfails => fails_of_sound hfails hsound
  rintro (_ | ⟨asserted, target⟩) ctx₂ ⟨hsound', hlearn⟩
  · exact ⟨⟨⟨fun _ => hlearn.2, by simp, by simp, by simp⟩, fun M hM => hsound' _ (hsound M hM)⟩,
      by simp⟩
  · obtain ⟨htarget, clause', hlearnt⟩ := hlearn
    have hlevel : ctx₁.trail.level = top := by rw [hstored.trail, hreturned.level]
    rw [hlevel] at htarget
    obtain ⟨hbelow, hadvanced⟩ := hlearnt.advanced_of_stored hstored hreturned hfalse.le_level htarget
    have hsound₂ : ∀ M, ctx.Sound M → ctx₂.Sound (Within M clause) := fun M hM =>
      hsound' _ (hsound M hM)
    refine ends_mono (propagateLearning_ends ctx.trail.level _ hlearnt.waiting
      (Nat.le_of_lt hbelow) ?_) (fun learning ctx₃ houtcome => houtcome.lowered hadvanced hbelow hsound₂)
      fun _ _ hfails => fails_of_sound hfails hsound₂
    -- the jumps to the clause are to levels above the one it forces a literal on
    rw [if_neg (Nat.ne_of_lt hbelow), hlearnt.level]
    exact min?_append_singleton jumps hjumps (Nat.le_of_lt htarget)

theorem resolve_several_ends (hseveral : ∀ asserted, ctx.ofLevel top clause ≠ [asserted]) :
    Ends (do
        let jumps ← if top < ctx.trail.level then do
            backjump top
            pure [top]
          else pure []
        let key ← storeClause clause .addition
        match ← learn key with
        | none => return ⟨false, jumps⟩
        | some (asserted, level) => propagateLearning asserted (jumps ++ [level]) :
          Step (Context ρ) Learning) ctx
      (fun learning ctx' => ctx.Lowered clause learning ctx')
      fun fault ctx' => ctx.Stuck ctx' ∨ StorageExhausted .addition fault ctx' := by
  have hagrees := h.intact.agrees
  have hle := hfalse.le_level
  dsimp only
  split
  · rw [ends_bind]
    refine ends_of_ensures (backjump_spec hagrees hle) fun _ ctx₁ hreturned => ?_
    rw [ends_bind, ends_pure]
    exact resolve_stored_ends h hfalse hseveral hreturned (by simp)
  · -- the clause is false on the newest level, and no return is needed
    obtain rfl : top = ctx.trail.level := by omega
    rw [ends_bind, ends_pure]
    exact resolve_stored_ends h hfalse hseveral (.refl hagrees) (by simp)

end learning

theorem run_resolveConflict_ground {canonical : Clause} {levels : List Nat}
    (hcanonical : clause.canonical? = some canonical) (hlevels : ctx.falseLevels? canonical = some levels)
    (htop : levels.foldl max 0 = 0) :
    (resolveConflict clause).run.run ctx = (.ok ⟨false, []⟩, ctx.withState .unsatisfiable) := by
  have hrun : Ensures (resolveConflict clause) ctx
      (fun learning ctx' => learning = ⟨false, []⟩ ∧ ctx' = ctx.withState .unsatisfiable) never := by
    unfold resolveConflict
    simp only [hcanonical, ensures_bind, ensures_get, hlevels, htop, if_true, setState, ensures_modify,
      ensures_pure, true_and]
    rfl
  obtain ⟨_, _, hrun, rfl, rfl⟩ := run_of_ensures hrun
  exact hrun

theorem run_resolveConflict_refused
    (h : (∃ literal ∈ clause, -literal ∈ clause) ∨
      ∃ literal ∈ clause, ctx.valuation.status literal ≠ .fails) :
    (resolveConflict clause).run.run ctx = (.error .invalidState, ctx) := by
  -- of a literal and its negation one is not false
  obtain ⟨literal, hmem, hstatus⟩ : ∃ literal ∈ clause, ctx.valuation.status literal ≠ .fails := by
    rcases h with ⟨literal, hmem, hneg⟩ | h
    · by_cases hfails : ctx.valuation.status literal = .fails
      · exact ⟨-literal, hneg, not_fails_neg hfails⟩
      · exact ⟨literal, hmem, hfails⟩
    · exact h
  have hrefused : Ends (resolveConflict clause) ctx (fun _ _ => False)
      fun fault ctx' => fault = .invalidState ∧ ctx' = ctx := by
    unfold resolveConflict
    rcases hcanonical : clause.canonical? with _ | canonical
    · exact ⟨rfl, rfl⟩
    · obtain ⟨_, hsame⟩ := Clause.canonical?_eq_some hcanonical
      rcases hlevels : ctx.falseLevels? canonical with _ | levels
      · simp only [ends_bind, ends_get, hlevels]
        exact ⟨rfl, rfl⟩
      · exact absurd (exists_falseLevels?_iff.1 ⟨levels, hlevels⟩ literal ((hsame literal).2 hmem))
          hstatus
  obtain ⟨_, _, hrun, rfl, rfl⟩ := error_of_ends hrefused
  exact hrun

/-- From a false clause something is learnt, if an analysis does not fail and there are numbers for
what is learnt. -/
theorem resolveConflict_false_ends (h : ctx.Waiting []) {canonical : Clause} {levels : List Nat}
    (hcanonical : clause.canonical? = some canonical) (hlevels : ctx.falseLevels? canonical = some levels) :
    Ends (resolveConflict clause) ctx (fun learning ctx' => ctx.Lowered clause learning ctx')
      fun fault ctx' => ctx.Stuck ctx' ∨ StorageExhausted .addition fault ctx' := by
  have hagrees := h.intact.agrees
  obtain ⟨hnodup, hsame⟩ := Clause.canonical?_eq_some hcanonical
  unfold resolveConflict
  simp only [hcanonical, ends_bind, ends_get, hlevels]
  by_cases htop : levels.foldl max 0 = 0
  · simp only [htop, if_true, setState, ends_bind, ends_modify, ends_pure]
    -- all levels are zero, so no model satisfies the clause
    refine ((resolved_of_ground (fun literal hmem => ?_) []).congr hsame).lowered
    obtain ⟨level, hlevel, hmark⟩ := (falseLevels?_spec hagrees hlevels).1 literal hmem
    have hzero := ((foldl_max_le levels 0).1 (Nat.le_of_eq htop)).2 level hlevel
    rwa [Nat.le_zero.1 hzero] at hmark
  · have hfalse := falseUpTo_of_falseLevels? hagrees hnodup hlevels htop
    have hpos := Nat.pos_of_ne_zero htop
    simp only [htop, if_false]
    split
    · rename_i asserted hsingle
      exact ends_mono (resolve_single_ends h hfalse hpos hsingle)
        (fun _ _ hlowered => hlowered.congr hsame) fun _ _ => id
    · rename_i hseveral
      exact ends_mono (resolve_several_ends h hfalse hseveral)
        (fun _ _ hlowered => hlowered.congr hsame) fun _ _ => id

/-- A clause is refused if it is not false, and learnt from otherwise. -/
theorem resolveConflict_ends (h : ctx.Waiting []) (clause : Clause) :
    Ends (resolveConflict clause) ctx (fun learning ctx' => ctx.Lowered clause learning ctx')
      fun fault ctx' => fault = .invalidState ∨ ctx.Stuck ctx' ∨ StorageExhausted .addition fault ctx' := by
  by_cases hfalse : ∀ literal ∈ clause, ctx.valuation.status literal = .fails
  · obtain ⟨canonical, levels, hcanonical, hlevels⟩ := exists_canonical_levels hfalse
    exact ends_mono (resolveConflict_false_ends h hcanonical hlevels) (fun _ _ => id) fun _ _ => Or.inr
  · have hrefused : (resolveConflict clause).run.run ctx = (.error .invalidState, ctx) :=
      run_resolveConflict_refused (Or.inr (by simpa using hfalse))
    exact ends_of_error hrefused (Or.inl rfl)

/-! ## Reasons for open literals -/

/-- A clause with an open literal is made the reason for it on the newest level, if there is a
number for it. -/
theorem record_reason_spec (h : ctx.Waiting []) (hproper : ctx.Proper clause)
    (hmem : literal ∈ clause) (hopen : ctx.Open literal) :
    Ends (do
        let key ← if clause.length = 1 then noteUnit literal .addition
          else storeClause clause .addition
        record literal (some key) : Step (Context ρ) Unit) ctx
      (fun _ ctx' => ctx.Learnt clause literal ctx.trail.level ctx')
      fun fault ctx' => ctx.Refused .addition fault ctx' := by
  have hagrees := h.intact.agrees
  have hguarded : ctx.Guarded fun _ _ => False :=
    h.guarded.mono fun _ _ hpending => List.not_mem_nil hpending
  have hmarks := hagrees.placement_eq_none.1 hopen.2
  have hreturned := Returned.refl hagrees
  dsimp only
  split
  · rename_i hlength
    obtain ⟨only, rfl⟩ := List.length_eq_one_iff.1 hlength
    obtain rfl : literal = only := List.mem_singleton.1 hmem
    rw [ends_bind]
    refine ends_of_ensures (noteUnit_spec literal .addition) ?_
    rintro _ _ ⟨rfl, rfl⟩
    -- the unit itself is the reason
    exact ends_of_never (record_asserted hmem hopen.1 hreturned hmarks extends_withUnit rfl rfl rfl
      h.intact.withUnit (fun _ hrecorded => hrecorded.guarded_only hguarded.withUnit)
      (extends_withUnit.known (known_unit hopen.1 .addition))
      ⟨[literal], has_noteUnit ctx.clauses literal .addition, .refl _⟩
      (fun _ _ hunit => mem_units_withUnit hunit)
      (fun M hM hclause => hM.withUnit fun model hmodel =>
        satisfied_singleton.1 (hclause model hmodel))
      (fun log haccounted => haccounted.withUnit .addition)
      (ClauseStore.added_noteUnit ctx.clauses literal) hagrees)
  · rename_i hlength
    have hpos := List.length_pos_of_mem hmem
    rw [ends_bind]
    refine ends_mono (storeClause_spec hagrees h.intact.exact hproper.nodup hproper.atoms
      (by omega) .addition) ?_ fun _ _ => id
    intro key ctx₁ hstored
    obtain ⟨clause', hhas, hperm⟩ := hstored.has
    refine ends_of_never (record_asserted hmem hopen.1 hreturned hmarks hstored.extends hstored.state
      hstored.trail hstored.graph (hstored.intact h.intact) (fun _ hrecorded => hrecorded.guarded_only
        (hstored.guarded_of_open hagrees hguarded hmem hmarks))
      ⟨clause', ClauseStore.literals?_of_has hhas, fun other hother => ?_⟩ ⟨clause', hhas, hperm⟩
      (fun source literal hunit => Or.inl ?_) (fun M hM hclause => hstored.sound hM hclause)
      (fun log haccounted => hstored.accounted haccounted) hstored.added hagrees)
    · rw [hstored.extends.count]
      exact hproper.atoms other (hperm.mem_iff.1 hother)
    · rw [hstored.units] at hunit
      exact hunit

end Satisfiability.Context
