import Satisfiability.Coordinator
import Satisfiability.Proofs.Context.Outside
import Satisfiability.Proofs.Equality.Consistency
import Satisfiability.Proofs.Equality.Explanations

/-!
# What the theory has been told

The literals of the trail that the theory has been told of come first, and those of its atoms are
asserted on a level of the theory no higher than the one that goes with their level
(`Coordinator.Mirrors`). Telling the theory of the next literal keeps this (`syncLiteral_spec`), and
so does a backjump that the theory follows (`followBackjump_spec`). Once it has been told of the
whole trail, what the trail holds of its atoms is asserted (`Mirrors.value?_eq`), but more may be
asserted than that, since levels of the context without a literal of the theory share a level of the
theory. If every atom is one of the theory there are no such levels (`Faithful`), and what is
asserted is the trail (`Mirrors.asserted_eq`).
-/

namespace Satisfiability.Coordinator

open Search Step Trail
open Context (Advanced Agrees)
open Equality (Solver)

variable {ρ : Type} {c c' : Coordinator ρ} {ctx : Context ρ} {level : Nat} {literal : Literal}
  {marks : List (Literal × Nat)}

/-- The literals of the trail that the theory has been told of, with their levels. -/
def told (c : Coordinator ρ) : List (Literal × Nat) := c.context.trail.marked.take c.synced

def untold (c : Coordinator ρ) : List (Literal × Nat) := c.context.trail.marked.drop c.synced

/-- For each level of a list of marks, how many are of this level or one below it. -/
structure Counts (marks : List (Literal × Nat)) (counts : List Nat) : Prop where
  count : ∀ level n, counts[level]? = some n → n = (upTo level marks).length
  lt : ∀ mark ∈ marks, mark.2 < counts.length

/-- Every atom of the context is one of the theory. -/
def Covered (c : Coordinator ρ) : Prop :=
  ∀ atom < c.context.atoms.count, c.theory.hasAtom atom = true

/-- The theory holds these literals on these levels and no others, and each level of the context
goes with the level of the theory that has its number. -/
structure Faithful (c : Coordinator ρ) (marks : List (Literal × Nat)) : Prop where
  asserted : c.theory.assertions.marked = marks
  levels : ∀ level k : Nat, c.theoryLevels[level]? = some k → k = level
  ground : c.theoryLevels = [] → c.theory.level = 0

/-- The theory stands on the last of its levels that go with levels of the context. -/
structure Levelled (c : Coordinator ρ) : Prop where
  coherent : c.theory.Coherent
  sorted : c.theoryLevels.Pairwise (· ≤ ·)
  last : ∀ level, c.theoryLevels.getLast? = some level → level = c.theory.level

/-- What the theory has been told of is asserted, and counted by level. If every atom is one of the
theory, nothing else is asserted. -/
structure Mirrors (c : Coordinator ρ) : Prop extends Levelled c where
  synced_le : c.synced ≤ c.context.trail.marked.length
  held : ∀ mark ∈ c.told, c.theory.hasAtom mark.1.atom = true →
    ∃ level, c.theoryLevels[mark.2]? = some level ∧ TrueBy c.theory.assertions.marked level mark.1
  counts : Counts c.told c.syncedByLevel
  faithful : c.Covered → c.Faithful c.told
  levels_le : c.theoryLevels.length ≤ c.context.trail.level + 1 ∧
    ∀ mark ∈ c.untold, c.theoryLevels.length ≤ mark.2 + 1
  counts_le : c.syncedByLevel.length ≤ c.context.trail.level + 1 ∧
    ∀ mark ∈ c.untold, c.syncedByLevel.length ≤ mark.2 + 1

theorem Mirrors.length_told (h : c.Mirrors) : c.told.length = c.synced := by
  rw [told, List.length_take, Nat.min_eq_left h.synced_le]

theorem told_append_untold (c : Coordinator ρ) : c.told ++ c.untold = c.context.trail.marked :=
  List.take_append_drop _ _

/-- No level of the theory that goes with one of the context is above the present one. -/
theorem Levelled.le_level (h : c.Levelled) {i : Nat} (hlevel : c.theoryLevels[i]? = some level) :
    level ≤ c.theory.level := by
  obtain ⟨hi, rfl⟩ := List.getElem?_eq_some_iff.1 hlevel
  have hne : c.theoryLevels ≠ [] := List.ne_nil_of_length_pos (Nat.lt_of_le_of_lt (Nat.zero_le i) hi)
  have hlast := h.last _ (List.getLast?_eq_some_getLast hne)
  rw [← hlast, List.getLast_eq_getElem]
  rcases Nat.lt_or_eq_of_le (Nat.le_sub_one_of_lt hi) with hlt | heq
  · exact List.pairwise_iff_getElem.1 h.sorted i _ hi (by omega) hlt
  · simp only [heq, Nat.le_refl]

theorem run_onContext {α : Type} (operation : Step (Context ρ) α) (c : Coordinator ρ) :
    (onContext operation).run.run c = ((operation.run.run c.context).1,
      { c with context := (operation.run.run c.context).2 }) := rfl

@[simp]
theorem ensures_onContext {α : Type} {operation : Step (Context ρ) α}
    {post : α → Coordinator ρ → Prop} {fail : Fault → Prop} :
    Ensures (onContext operation) c post fail ↔
      Ensures operation c.context (fun a ctx => post a { c with context := ctx }) fail := by
  unfold Ensures
  rw [run_onContext]
  rcases operation.run.run c.context with ⟨result, ctx⟩
  cases result <;> rfl

theorem ensures_orTheoryFault {σ α : Type} {result : Except TheoryFault α} {s : σ}
    {post : α → σ → Prop} {fail : Fault → Prop} (h : ∀ a, result = .ok a → post a s)
    (hfail : ∀ cause, result = .error cause → fail (.theory cause)) :
    Ensures (orTheoryFault result) s post fail := by
  cases result with
  | ok a => exact h a rfl
  | error cause => exact hfail cause rfl

theorem Faithful.length (h : c.Faithful marks) (hlevelled : c.Levelled) :
    c.theoryLevels.length = c.theory.level + 1 ∨ c.theoryLevels = [] ∧ c.theory.level = 0 := by
  rcases List.eq_nil_or_concat c.theoryLevels with hnil | ⟨below, last, hlevels⟩
  · exact Or.inr ⟨hnil, h.ground hnil⟩
  · have hlast : last = c.theory.level := hlevelled.last last (by simp [hlevels])
    have hnumber : last = below.length := h.levels below.length last (by simp [hlevels])
    left
    rw [hlevels, List.length_concat, ← hlast, hnumber]

/-! ## Counts -/

section counts

variable {marks : List (Literal × Nat)} {counts : List Nat}

theorem Counts.getD (h : Counts marks counts) (level : Nat) :
    (counts[level]?).getD marks.length = (upTo level marks).length := by
  cases hcase : counts[level]? with
  | some n => exact h.count level n hcase
  | none =>
    have hle := List.getElem?_eq_none_iff.1 hcase
    rw [upTo_eq_self fun mark hmark => Nat.le_of_lt (Nat.lt_of_lt_of_le (h.lt mark hmark) hle)]
    rfl

theorem Counts.take (h : Counts marks counts) (level : Nat) :
    Counts (upTo level marks) (counts.take (level + 1)) := by
  constructor
  · intro other n hn
    have hlt : other < level + 1 := by
      by_contra hge
      rw [List.getElem?_take_eq_none (Nat.le_of_not_lt hge)] at hn
      exact absurd hn (by simp)
    rw [List.getElem?_take_of_lt hlt] at hn
    rw [upTo_upTo (Nat.le_of_lt_succ hlt)]
    exact h.count other n hn
  · intro mark hmark
    obtain ⟨hold, hle⟩ := mem_upTo.1 hmark
    have := h.lt mark hold
    rw [List.length_take]
    omega

theorem Counts.concat (h : Counts marks counts) (hlength : counts.length ≤ level + 1)
    (hle : ∀ mark ∈ marks, mark.2 ≤ level) (literal : Literal) :
    Counts (marks ++ [(literal, level)])
      ((counts ++ List.replicate (level + 1 - counts.length) marks.length).set level
        (marks.length + 1)) := by
  have hpadded : (counts ++ List.replicate (level + 1 - counts.length) marks.length).length =
      level + 1 := by
    rw [List.length_append, List.length_replicate]
    omega
  constructor
  · intro other n hn
    rw [List.getElem?_set] at hn
    split at hn
    · rename_i heq
      subst heq
      rw [if_pos (by omega)] at hn
      cases hn
      rw [upTo_eq_self, List.length_append, List.length_singleton]
      intro mark hmark
      rcases List.mem_append.1 hmark with hmark | hmark
      · exact hle mark hmark
      · exact Nat.le_of_eq (congrArg Prod.snd (List.mem_singleton.1 hmark))
    · rename_i hne
      have hlt := (List.getElem?_eq_some_iff.1 hn).1
      have hnil : upTo other [(literal, level)] = [] := by
        refine upTo_eq_nil fun mark hmark => ?_
        rw [List.mem_singleton.1 hmark]
        change other < level
        omega
      rw [upTo_append, hnil, List.append_nil, ← h.getD]
      -- levels without a count had no marks of their own
      rcases Nat.lt_or_ge other counts.length with hold | hnew
      · rw [List.getElem?_append_left hold] at hn
        rw [hn]
        rfl
      · rw [List.getElem?_append_right hnew] at hn
        rw [List.getElem?_eq_none hnew]
        exact List.eq_of_mem_replicate (List.mem_of_getElem? hn)
  · intro mark hmark
    rw [List.length_set, hpadded]
    rcases List.mem_append.1 hmark with hmark | hmark
    · exact Nat.lt_succ_of_le (hle mark hmark)
    · rw [List.mem_singleton.1 hmark]
      exact Nat.lt_succ_self level

end counts

/-! ## Backjumps -/

theorem backtrack_eq_ok {solver solver' : Solver} (h : solver.Coherent)
    (hbacktrack : solver.backtrack level = .ok solver') :
    solver'.Coherent ∧ solver.SameAtoms solver' ∧ solver'.level = level ∧
      solver'.assertions.marked = upTo level solver.assertions.marked := by
  unfold Solver.backtrack at hbacktrack
  split at hbacktrack
  · exact absurd hbacktrack (by simp)
  · rename_i hle
    cases hbacktrack
    have hspec := h.closeLevels (Nat.sub_le solver.level level)
    rwa [Nat.sub_sub_self (Nat.le_of_not_lt hle)] at hspec

theorem Mirrors.extend (h : c.Mirrors) {news : List (Literal × Nat)}
    (hcount : ctx.atoms.count = c.context.atoms.count)
    (hlevel : c.context.trail.level ≤ ctx.trail.level)
    (hmarked : ctx.trail.marked = c.context.trail.marked ++ news)
    (hnews : ∀ mark ∈ news, c.context.trail.level ≤ mark.2) :
    Mirrors { c with context := ctx } := by
  have htold : told { c with context := ctx } = c.told := by
    rw [told, hmarked, List.take_append_of_le_length h.synced_le, told]
  have huntold : untold { c with context := ctx } = c.untold ++ news := by
    rw [untold, hmarked, List.drop_append_of_le_length h.synced_le, untold]
  -- what is not told of still is of no lower level than what has levels
  have hahead : ∀ n, (n ≤ c.context.trail.level + 1 ∧ ∀ mark ∈ c.untold, n ≤ mark.2 + 1) →
      n ≤ ctx.trail.level + 1 ∧ ∀ mark ∈ untold { c with context := ctx }, n ≤ mark.2 + 1 := by
    intro n hn
    refine ⟨by omega, fun mark hmem => ?_⟩
    rw [huntold, List.mem_append] at hmem
    rcases hmem with hmem | hmem
    · exact hn.2 mark hmem
    · have := hnews mark hmem
      omega
  refine ⟨⟨h.coherent, h.sorted, h.last⟩, ?_, ?_, ?_, fun hcovered => ?_, hahead _ h.levels_le,
    hahead _ h.counts_le⟩
  · rw [hmarked, List.length_append]
    exact Nat.le_add_right_of_le h.synced_le
  · rw [htold]
    exact h.held
  · rw [htold]
    exact h.counts
  · have hbefore : c.Covered := fun atom hlt => hcovered atom (hcount ▸ hlt)
    rw [htold]
    exact ⟨(h.faithful hbefore).asserted, (h.faithful hbefore).levels, (h.faithful hbefore).ground⟩

def target (c : Coordinator ρ) (level : Nat) : Nat := (c.theoryLevel? level).getD c.theory.level

theorem Levelled.le_target (h : c.Levelled) {i k : Nat} (hle : i ≤ level)
    (hgoes : c.theoryLevels[i]? = some k) : k ≤ c.target level := by
  unfold target theoryLevel?
  cases hcase : c.theoryLevels[level]? with
  | none => exact h.le_level hgoes
  | some other =>
    obtain ⟨hi, rfl⟩ := List.getElem?_eq_some_iff.1 hgoes
    obtain ⟨hlevel, rfl⟩ := List.getElem?_eq_some_iff.1 hcase
    rcases Nat.lt_or_eq_of_le hle with hlt | rfl
    · exact List.pairwise_iff_getElem.1 h.sorted i _ hi hlevel hlt
    · exact Nat.le_refl _

theorem Levelled.getLast?_take (h : c.Levelled) {k : Nat}
    (hlast : (c.theoryLevels.take (level + 1)).getLast? = some k) : k = c.target level := by
  unfold target theoryLevel?
  rcases Nat.lt_or_ge level c.theoryLevels.length with hlt | hge
  · rw [List.getLast?_eq_getElem?, List.length_take, Nat.min_eq_left hlt,
      List.getElem?_take_of_lt (by omega), Nat.succ_sub_one] at hlast
    rw [hlast]
    rfl
  · -- no level goes with the one jumped to, and so none is given up
    rw [List.take_of_length_le (by omega)] at hlast
    rw [List.getElem?_eq_none hge, h.last k hlast]
    rfl

/-- Where each level goes with that of its number, a backjump takes the theory back to the literals
up to the level jumped to. -/
theorem Faithful.upTo_target (h : c.Faithful marks) (hlevelled : c.Levelled) (level : Nat) :
    upTo (c.target level) marks = upTo level marks := by
  unfold target theoryLevel?
  cases hcase : c.theoryLevels[level]? with
  | some k => rw [Option.getD_some, h.levels level k hcase]
  | none =>
    -- the level is above all that the theory has, so nothing is given up
    have hlength := List.getElem?_eq_none_iff.1 hcase
    have hlevel : c.theory.level ≤ level := by
      rcases h.length hlevelled with heq | ⟨-, heq⟩ <;> omega
    have hmarks : ∀ mark ∈ marks, mark.2 ≤ c.theory.level := fun mark hmark =>
      Trail.level_le (h.asserted ▸ hmark)
    rw [Option.getD_none, upTo_eq_self hmarks,
      upTo_eq_self fun mark hmark => Nat.le_trans (hmarks mark hmark) hlevel]

/-- What is left after a backjump, where the context and the theory have made theirs. -/
def jumped (c : Coordinator ρ) (ctx : Context ρ) (theory : Solver) : Coordinator ρ where
  context := ctx
  theory := theory
  theoryLevels := c.theoryLevels.take (ctx.trail.level + 1)
  synced := (c.syncedByLevel[ctx.trail.level]?).getD c.synced
  syncedByLevel := c.syncedByLevel.take (ctx.trail.level + 1)

section jumped

variable {theory : Solver} {news : List Literal} (h : c.Mirrors)
  (hmarked : ctx.trail.marked =
    upTo ctx.trail.level c.context.trail.marked ++ news.map (·, ctx.trail.level))

include h hmarked

/-- What was told is on the trail still up to the level jumped to, and nothing behind it. -/
theorem marked_jumped : (c.jumped ctx theory).told = upTo ctx.trail.level c.told ∧
    (c.jumped ctx theory).untold = upTo ctx.trail.level c.untold ++ news.map (·, ctx.trail.level) ∧
      (c.jumped ctx theory).synced ≤ ctx.trail.marked.length := by
  have hsynced : (c.jumped ctx theory).synced = (upTo ctx.trail.level c.told).length := by
    rw [jumped, ← h.length_told, h.counts.getD]
  have hsplit : ctx.trail.marked = upTo ctx.trail.level c.told ++
      (upTo ctx.trail.level c.untold ++ news.map (·, ctx.trail.level)) := by
    rw [hmarked, ← told_append_untold c, upTo_append, List.append_assoc]
  refine ⟨?_, ?_, ?_⟩
  · rw [told, hsynced]
    exact (congrArg (List.take _) hsplit).trans List.take_left
  · rw [untold, hsynced]
    exact (congrArg (List.drop _) hsplit).trans List.drop_left
  · rw [hsynced, hsplit, List.length_append]
    exact Nat.le_add_right _ _

theorem ahead_jumped {levels : List Nat} (hlevels : ∀ mark ∈ c.untold, levels.length ≤ mark.2 + 1) :
    (levels.take (ctx.trail.level + 1)).length ≤ ctx.trail.level + 1 ∧
      ∀ mark ∈ (c.jumped ctx theory).untold,
        (levels.take (ctx.trail.level + 1)).length ≤ mark.2 + 1 := by
  refine ⟨List.length_take_le _ _, fun mark hmem => ?_⟩
  rw [(marked_jumped h hmarked).2.1, List.mem_append] at hmem
  rcases hmem with hold | hnew
  · exact Nat.le_trans (List.length_take_le' _ _) (hlevels mark (mem_upTo.1 hold).1)
  · obtain ⟨_, _, rfl⟩ := List.mem_map.1 hnew
    exact List.length_take_le _ _

theorem Mirrors.jumped (hcount : ctx.atoms.count = c.context.atoms.count)
    (hcoherent : theory.Coherent) (hatoms : c.theory.SameAtoms theory)
    (hlevel : theory.level = c.target ctx.trail.level)
    (hassertions : theory.assertions.marked =
      upTo (c.target ctx.trail.level) c.theory.assertions.marked) :
    (c.jumped ctx theory).Mirrors := by
  obtain ⟨htold, -, hsynced⟩ := @marked_jumped _ _ _ theory news h hmarked
  have hlevelled : (c.jumped ctx theory).Levelled :=
    ⟨hcoherent, h.sorted.sublist (List.take_sublist _ _), fun k hlast =>
      (h.getLast?_take hlast).trans hlevel.symm⟩
  refine ⟨hlevelled, hsynced, fun mark hmark hatom => ?_, ?_, fun hcovered => ?_,
    ahead_jumped h hmarked h.levels_le.2, ahead_jumped h hmarked h.counts_le.2⟩
  · -- what was told and is on the trail still is asserted still, for its level is kept
    rw [htold] at hmark
    obtain ⟨hold, hle⟩ := mem_upTo.1 hmark
    have hatom' : c.theory.hasAtom mark.1.atom = true := by
      change theory.hasAtom mark.1.atom = true at hatom
      rwa [Solver.hasAtom, hatoms.sides] at hatom
    obtain ⟨k, hgoes, htrue⟩ := h.held mark hold hatom'
    refine ⟨k, ?_, ?_⟩
    · exact (List.getElem?_take_of_lt (Nat.lt_succ_of_le hle)).trans hgoes
    · change TrueBy theory.assertions.marked k mark.1
      rw [hassertions]
      exact htrue.upTo (h.le_target hle hgoes)
  · rw [htold]
    exact h.counts.take _
  · have hbefore : c.Covered := by
      intro atom hlt
      have hatom : theory.hasAtom atom = true := hcovered atom (hcount.symm ▸ hlt)
      rwa [Solver.hasAtom, hatoms.sides] at hatom
    have hfaithful := h.faithful hbefore
    rw [htold]
    refine ⟨?_, fun i k hgoes => ?_, fun hnil => ?_⟩
    · change theory.assertions.marked = _
      rw [hassertions, hfaithful.asserted, hfaithful.upTo_target h.toLevelled]
    · have hkept : (c.theoryLevels.take (ctx.trail.level + 1))[i]? = some k := hgoes
      rw [List.getElem?_take] at hkept
      split at hkept
      · exact hfaithful.levels i k hkept
      · cases hkept
    · change theory.level = 0
      have hnil' : c.theoryLevels = [] := (List.take_eq_nil_iff.1 hnil).resolve_left (by simp)
      rw [hlevel, target, theoryLevel?, hnil', List.getElem?_nil, Option.getD_none,
        hfaithful.ground hnil']

end jumped

theorem followBackjump_spec (h : c.Mirrors) (hadvanced : c.context.Advanced ctx) :
    Ensures (followBackjump ctx.trail.level) { c with context := ctx }
      (fun _ c' => c'.Mirrors ∧ c'.context = ctx ∧ c.theory.SameAtoms c'.theory) anyFault := by
  obtain ⟨news, hmarked, _⟩ := hadvanced.marked
  simp only [followBackjump, ensures_bind, ensures_get]
  refine ensures_orTheoryFault (fun theory hbacktrack => ?_) fun _ _ => trivial
  obtain ⟨hcoherent, hatoms, hlevel, hassertions⟩ := backtrack_eq_ok h.coherent hbacktrack
  exact ⟨h.jumped hmarked hadvanced.extension.count hcoherent hatoms hlevel hassertions, rfl, hatoms⟩

/-! ## Literals told -/

/-- The theory stands on a level that goes with one of the context, and all that it held before it
still holds. -/
structure StandsAt (c : Coordinator ρ) (level : Nat) (c' : Coordinator ρ) : Prop
    extends Levelled c' where
  context : c'.context = c.context
  synced : c'.synced = c.synced
  syncedByLevel : c'.syncedByLevel = c.syncedByLevel
  atoms : c.theory.SameAtoms c'.theory
  before : c.theoryLevels <+: c'.theoryLevels
  length : c'.theoryLevels.length = level + 1
  goes : c'.theoryLevels[level]? = some c'.theory.level
  asserted : c.theory.assertions.marked <+: c'.theory.assertions.marked

/-- The levels of the context up to one that has no level of the theory yet get one. -/
theorem Levelled.pad (h : c.Levelled) (hlength : c.theoryLevels.length ≤ level) {theory : Solver}
    (hcoherent : theory.Coherent) (hlevel : c.theory.level ≤ theory.level)
    (hatoms : c.theory.SameAtoms theory)
    (hasserted : c.theory.assertions.marked <+: theory.assertions.marked) :
    c.StandsAt level { c with
      theory
      theoryLevels := c.theoryLevels ++
        List.replicate (level - c.theoryLevels.length) c.theory.level ++ [theory.level] } := by
  -- the levels added stand for that of the theory, which is the highest so far
  have hle : ∀ other ∈ c.theoryLevels ++
      List.replicate (level - c.theoryLevels.length) c.theory.level, other ≤ c.theory.level := by
    intro other hmem
    rcases List.mem_append.1 hmem with hmem | hmem
    · obtain ⟨i, hi⟩ := List.mem_iff_getElem?.1 hmem
      exact h.le_level hi
    · exact Nat.le_of_eq (List.eq_of_mem_replicate hmem)
  have hpadded : (c.theoryLevels ++
      List.replicate (level - c.theoryLevels.length) c.theory.level).length = level := by
    rw [List.length_append, List.length_replicate]
    omega
  refine ⟨⟨hcoherent, ?_, fun last hlast => ?_⟩, rfl, rfl, rfl, hatoms, ?_, ?_, ?_, hasserted⟩
  · rw [List.pairwise_append, List.pairwise_append]
    refine ⟨⟨h.sorted, List.pairwise_replicate.2 (Or.inr (Nat.le_refl _)), fun a ha b hb => ?_⟩,
      List.pairwise_singleton _ _, fun a ha b hb => ?_⟩
    · rw [List.eq_of_mem_replicate hb]
      exact hle a (List.mem_append_left _ ha)
    · rw [List.mem_singleton.1 hb]
      exact Nat.le_trans (hle a ha) hlevel
  · rw [List.getLast?_concat] at hlast
    exact (Option.some.inj hlast).symm
  · rw [List.append_assoc]
    exact List.prefix_append _ _
  · rw [List.length_append, hpadded]
    rfl
  · rw [List.getElem?_append_right (Nat.le_of_eq hpadded), hpadded, Nat.sub_self]
    rfl

theorem StandsAt.assert {c₁ : Coordinator ρ} {theory : Solver} (h : c.StandsAt level c₁)
    (hassert : c₁.theory.assert literal = .ok theory) :
    c.StandsAt level { c₁ with theory } ∧ literal ∈ theory.assertions.literals := by
  obtain ⟨hasserted, hcoherent⟩ := h.coherent.asserted hassert
  refine ⟨⟨⟨hcoherent, h.sorted, fun last hlast => ?_⟩, h.context, h.synced, h.syncedByLevel,
    h.atoms.trans hasserted.atoms, h.before, h.length, ?_, h.asserted.trans ?_⟩, hasserted.mem⟩
  · rw [h.last last hlast, hasserted.level]
  · rw [h.goes, hasserted.level]
  · rcases hasserted.marked with heq | heq
    · exact heq ▸ List.prefix_refl _
    · exact heq ▸ List.prefix_append _ _

/-- Where a level of the theory goes with the level already, the theory stands on it. -/
theorem Levelled.standsAt (h : c.Levelled) (hlength : c.theoryLevels.length = level + 1) :
    c.StandsAt level c := by
  have hlast : c.theoryLevels[level]? = c.theoryLevels.getLast? := by
    rw [List.getLast?_eq_getElem?, hlength, Nat.add_sub_cancel]
  refine ⟨h, rfl, rfl, rfl, .refl _, List.prefix_refl _, hlength, ?_, List.prefix_refl _⟩
  rw [List.getElem?_eq_getElem (by omega)] at hlast ⊢
  rw [h.last _ hlast.symm]

/-- The state in which a literal of a level is asserted: the levels up to it have got their levels
of the theory, and the theory stands on that of the level. -/
def opened (c : Coordinator ρ) (level : Nat) : Coordinator ρ :=
  let levels := c.theoryLevels ++ List.replicate (level - c.theoryLevels.length) c.theory.level
  if levels.length = level then
    let theory := if level = 0 then c.theory else c.theory.openLevel
    { c with theory, theoryLevels := levels ++ [theory.level] }
  else { c with theoryLevels := levels }

theorem opened_of_le (hle : c.theoryLevels.length ≤ level) : c.opened level = { c with
    theory := if level = 0 then c.theory else c.theory.openLevel
    theoryLevels := c.theoryLevels ++ List.replicate (level - c.theoryLevels.length) c.theory.level ++
      [(if level = 0 then c.theory else c.theory.openLevel).level] } := by
  have hlength : (c.theoryLevels ++
      List.replicate (level - c.theoryLevels.length) c.theory.level).length = level := by
    rw [List.length_append, List.length_replicate]
    omega
  rw [opened, if_pos hlength]

theorem opened_of_length (hlength : c.theoryLevels.length = level + 1) : c.opened level = c := by
  have hpadded : c.theoryLevels ++ List.replicate (level - c.theoryLevels.length) c.theory.level =
      c.theoryLevels := by
    rw [Nat.sub_eq_zero_of_le (by omega), List.replicate_zero, List.append_nil]
  rw [opened, hpadded, if_neg (by omega)]

theorem Levelled.opened (h : c.Levelled) (hlength : c.theoryLevels.length ≤ level + 1) :
    c.StandsAt level (c.opened level) := by
  rcases Nat.lt_or_eq_of_le hlength with hlt | heq
  · -- no level goes with it yet: the theory opens one, except on the ground
    rw [opened_of_le (Nat.le_of_lt_succ hlt)]
    refine h.pad (Nat.le_of_lt_succ hlt) ?_ ?_ ?_ ?_
    all_goals split
    · exact h.coherent
    · exact h.coherent.openLevel
    · exact Nat.le_refl _
    · exact Nat.le_succ _
    · exact .refl _
    · exact Solver.sameAtoms_openLevel _
    · exact List.prefix_refl _
    · exact (marked_openLevel _).symm ▸ List.prefix_refl _
  · rw [opened_of_length heq]
    exact h.standsAt heq

/-- Where no level is passed over, the level that the theory opens has the number of the level. -/
theorem Faithful.opened (h : c.Faithful marks) (hlevelled : c.Levelled)
    (hlength : c.theoryLevels.length ≤ level + 1) (hle : level ≤ c.theory.level + 1) :
    (c.opened level).Faithful marks ∧ (c.opened level).theory.level = level := by
  rcases Nat.lt_or_eq_of_le hlength with hlt | heq
  · rw [opened_of_le (Nat.le_of_lt_succ hlt)]
    have hmarked : (if level = 0 then c.theory else c.theory.openLevel).assertions.marked = marks := by
      split
      · exact h.asserted
      · exact (marked_openLevel _).trans h.asserted
    rcases h.length hlevelled with heq | ⟨hnil, hground⟩
    · have hlevel : level = c.theoryLevels.length := by omega
      have hopened : (if level = 0 then c.theory else c.theory.openLevel).level = level := by
        rw [if_neg (by omega)]
        exact (level_openLevel _).trans (by rw [← Solver.level]; omega)
      refine ⟨⟨hmarked, fun i k hgoes => ?_, by simp⟩, hopened⟩
      rw [hopened, hlevel, Nat.sub_self, List.replicate_zero, List.append_nil,
        Context.getElem?_concat] at hgoes
      rcases hgoes with hold | ⟨rfl, rfl⟩
      · exact h.levels i k hold
      · rfl
    · -- the first literal of the theory is on the ground or on the level above it
      have hopened : (if level = 0 then c.theory else c.theory.openLevel).level = level := by
        split
        · omega
        · exact (level_openLevel _).trans (by rw [← Solver.level]; omega)
      refine ⟨⟨hmarked, fun i k hgoes => ?_, by simp⟩, hopened⟩
      rw [hopened, hnil, hground] at hgoes
      obtain rfl | rfl : level = 0 ∨ level = 1 := by omega
      · rcases i with _ | i <;> simp at hgoes
        exact hgoes.symm
      · rcases i with _ | _ | i <;> simp at hgoes <;> exact hgoes.symm
  · rw [opened_of_length heq]
    refine ⟨h, ?_⟩
    rcases h.length hlevelled with hlevel | ⟨hnil, -⟩
    · omega
    · rw [hnil] at heq
      cases heq

theorem ensures_assertAt {post : Unit → Coordinator ρ → Prop} {fail : Fault → Prop} :
    Ensures (assertAt level literal) c post fail ↔
      Ensures (orTheoryFault ((c.opened level).theory.assert literal)) (c.opened level)
        (fun theory c₁ => post ⟨⟩ { c₁ with theory }) fail := by
  unfold assertAt
  simp only [ensures_bind, ensures_modify, ensures_get]
  rfl

def noted (c : Coordinator ρ) (level : Nat) : Coordinator ρ :=
  { c with
    synced := c.synced + 1
    syncedByLevel := (c.syncedByLevel ++ List.replicate (level + 1 - c.syncedByLevel.length)
      c.synced).set level (c.synced + 1) }

/-- The next literal of the trail is counted once it is asserted, if it is one of the theory. -/
theorem Mirrors.noted (h : c.Mirrors)
    (hnext : c.context.trail.marked[c.synced]? = some (literal, level)) (hlevelled : c'.Levelled)
    (hcontext : c'.context = c.context) (hsynced : c'.synced = c.synced)
    (hcounts : c'.syncedByLevel = c.syncedByLevel) (hlength : c'.theoryLevels.length ≤ level + 1)
    (hheld : ∀ mark ∈ c.told ++ [(literal, level)], c'.theory.hasAtom mark.1.atom = true →
      ∃ k, c'.theoryLevels[mark.2]? = some k ∧ TrueBy c'.theory.assertions.marked k mark.1)
    (hfaithful : c'.Covered → c'.Faithful (c.told ++ [(literal, level)])) :
    (c'.noted level).Mirrors := by
  obtain ⟨hlt, hmark⟩ := List.getElem?_eq_some_iff.1 hnext
  have huntold : c.untold = (literal, level) :: c.context.trail.marked.drop (c.synced + 1) := by
    rw [untold, List.drop_eq_getElem_cons hlt, hmark]
  have hmem : (literal, level) ∈ c.untold := huntold ▸ List.mem_cons_self
  have htold : (c'.noted level).told = c.told ++ [(literal, level)] := by
    change c'.context.trail.marked.take (c'.synced + 1) = _
    rw [hcontext, hsynced, List.take_add_one, hnext]
    rfl
  -- levels only rise along the trail
  have hsorted := pairwise_marked c.context.trail
  rw [← told_append_untold c, List.pairwise_append] at hsorted
  have hahead : ∀ n ≤ level + 1, n ≤ c'.context.trail.level + 1 ∧
      ∀ mark ∈ (c'.noted level).untold, n ≤ mark.2 + 1 := by
    intro n hn
    rw [hcontext]
    refine ⟨Nat.le_trans hn (Nat.succ_le_succ (level_le (List.mem_of_getElem? hnext))),
      fun mark hmark => ?_⟩
    change mark ∈ c'.context.trail.marked.drop (c'.synced + 1) at hmark
    rw [hcontext, hsynced] at hmark
    have hrest := hsorted.2.1
    rw [huntold, List.pairwise_cons] at hrest
    exact Nat.le_trans hn (Nat.succ_le_succ (hrest.1 mark hmark))
  have hcount : c.syncedByLevel.length ≤ level + 1 := h.counts_le.2 _ hmem
  refine ⟨⟨hlevelled.coherent, hlevelled.sorted, hlevelled.last⟩, ?_, ?_, ?_, fun hcovered => ?_,
    hahead _ hlength, hahead _ ?_⟩
  · change c'.synced + 1 ≤ c'.context.trail.marked.length
    rw [hcontext, hsynced]
    exact hlt
  · rw [htold]
    exact hheld
  · rw [htold]
    change Counts _ ((c'.syncedByLevel ++ List.replicate (level + 1 - c'.syncedByLevel.length)
      c'.synced).set level (c'.synced + 1))
    rw [hcounts, hsynced, ← h.length_told]
    exact h.counts.concat hcount (fun mark hmark => hsorted.2.2 mark hmark _ hmem) literal
  · rw [htold]
    exact ⟨(hfaithful hcovered).asserted, (hfaithful hcovered).levels, (hfaithful hcovered).ground⟩
  · rw [Coordinator.noted, List.length_set, List.length_append, List.length_replicate, hcounts]
    omega

theorem Covered.sameAtoms (h : c.Covered) (hcontext : c'.context = c.context)
    (hatoms : c.theory.SameAtoms c'.theory) : c'.Covered := by
  intro atom hlt
  rw [hcontext] at hlt
  rw [Solver.hasAtom, hatoms.sides]
  exact h atom hlt

theorem Covered.of_sameAtoms (h : c'.Covered) (hcontext : c'.context = c.context)
    (hatoms : c.theory.SameAtoms c'.theory) : c.Covered := by
  intro atom hlt
  have hatom := h atom (hcontext ▸ hlt)
  rwa [Solver.hasAtom, hatoms.sides] at hatom

/-- Where every atom is one of the theory, the next literal is new to it, and no level is passed
over. -/
theorem Mirrors.next (h : c.Mirrors) (hcovered : c.Covered) (hagrees : c.context.Agrees)
    (hfilled : c.context.trail.Filled)
    (hnext : c.context.trail.marked[c.synced]? = some (literal, level)) :
    level ≤ c.theory.level + 1 ∧
      ∀ other ∈ c.theory.assertions.literals, other.atom ≠ literal.atom := by
  have hasserted := (h.faithful hcovered).asserted
  constructor
  · rcases Nat.lt_or_ge 1 level with hlt | hle
    · -- the level below has a literal, which comes before and so is asserted
      have hbelow := Trail.level_le (List.mem_of_getElem? hnext)
      obtain ⟨other, hmem⟩ := hfilled.exists_mark (Nat.sub_pos_of_lt hlt)
        (Nat.le_trans (Nat.sub_le level 1) hbelow)
      have htold : (other, level - 1) ∈ c.told := by
        rw [← told_append_untold c, List.mem_append] at hmem
        refine hmem.resolve_right fun huntold => ?_
        have hsorted := pairwise_marked c.context.trail
        rw [← List.take_append_drop c.synced c.context.trail.marked, List.pairwise_append] at hsorted
        rw [untold, List.drop_eq_getElem_cons (List.getElem?_eq_some_iff.1 hnext).1,
          (List.getElem?_eq_some_iff.1 hnext).2] at huntold
        have hrest := hsorted.2.1
        rw [List.drop_eq_getElem_cons (List.getElem?_eq_some_iff.1 hnext).1,
          (List.getElem?_eq_some_iff.1 hnext).2, List.pairwise_cons] at hrest
        rcases List.mem_cons.1 huntold with heq | hlater
        · have := congrArg Prod.snd heq
          simp only at this
          omega
        · have := hrest.1 _ hlater
          simp only at this
          omega
      have hlevel := Trail.level_le (hasserted.symm ▸ htold)
      change level - 1 ≤ c.theory.level at hlevel
      omega
    · omega
  · intro other hother heq
    rw [← map_fst_marked, hasserted] at hother
    obtain ⟨⟨_, otherLevel⟩, hmem, rfl⟩ := List.mem_map.1 hother
    obtain ⟨i, hi⟩ := List.mem_iff_getElem?.1 hmem
    rw [told, List.getElem?_take] at hi
    split at hi
    · rename_i hlt
      exact Nat.ne_of_lt hlt (hagrees.unique hi hnext heq).2.2
    · cases hi

/-- The theory is told of the next literal of the trail. It can refuse to be told only if some atom
is not one of its own. -/
theorem syncLiteral_spec (h : c.Mirrors) (hagrees : c.context.Agrees)
    (hfilled : c.context.trail.Filled)
    (hnext : c.context.trail.marked[c.synced]? = some (literal, level)) :
    Ensures (syncLiteral literal) c (fun _ c' => c'.Mirrors ∧ c'.context = c.context ∧
      c'.synced = c.synced + 1 ∧ c.theory.SameAtoms c'.theory) fun _ => ¬ c.Covered := by
  have hmem := List.mem_of_getElem? hnext
  have hlevel : (c.context.atoms.level? literal.atom).getD 0 = level := by
    rw [hagrees.level?_of_mem hmem]
    rfl
  have hlevels : c.theoryLevels.length ≤ level + 1 := by
    obtain ⟨hlt, hmark⟩ := List.getElem?_eq_some_iff.1 hnext
    refine h.levels_le.2 (literal, level) ?_
    rw [untold, List.drop_eq_getElem_cons hlt, hmark]
    exact List.mem_cons_self
  have hopened := h.toLevelled.opened hlevels
  have hready : c.Covered → (c.opened level).Faithful c.told ∧ (c.opened level).theory.level = level ∧
      ∀ other ∈ (c.opened level).theory.assertions.literals, other.atom ≠ literal.atom := by
    intro hcovered
    obtain ⟨hle, hnew⟩ := h.next hcovered hagrees hfilled hnext
    obtain ⟨hfaithful, hstands⟩ := (h.faithful hcovered).opened h.toLevelled hlevels hle
    refine ⟨hfaithful, hstands, fun other hother => hnew other ?_⟩
    rwa [← map_fst_marked, hfaithful.asserted, ← (h.faithful hcovered).asserted,
      map_fst_marked] at hother
  unfold syncLiteral
  rw [ensures_bind, ensures_get, hlevel, ensures_bind, ensures_get]
  dsimp only
  split
  · rename_i hatom
    rw [ensures_bind, ensures_assertAt]
    refine ensures_orTheoryFault (fun theory hassert => ?_) fun cause hassert hcovered => ?_
    · -- the literal is asserted, and what was held still is
      obtain ⟨hstands, hliteral⟩ := hopened.assert hassert
      rw [ensures_modify]
      refine ⟨h.noted hnext hstands.toLevelled hstands.context hstands.synced hstands.syncedByLevel
        (Nat.le_of_eq hstands.length) (fun mark hmark hatom => ?_) fun hcovered => ?_,
        hstands.context, congrArg (· + 1) hstands.synced, hstands.atoms⟩
      · rcases List.mem_append.1 hmark with hold | hnew
        · have hatom' : c.theory.hasAtom mark.1.atom = true := by
            rwa [Solver.hasAtom, hstands.atoms.sides] at hatom
          obtain ⟨other, hgoes, k, hk, hheld⟩ := h.held mark hold hatom'
          obtain ⟨hi, rfl⟩ := List.getElem?_eq_some_iff.1 hgoes
          exact ⟨_, List.prefix_iff_getElem?.1 hstands.before _ hi, k, hk,
            hstands.asserted.subset hheld⟩
        · rw [List.mem_singleton.1 hnew]
          obtain ⟨k, hk⟩ := mem_literals_iff.1 hliteral
          exact ⟨_, hstands.goes, k, level_le hk, hk⟩
      · obtain ⟨hfaithful, hstood, hnew⟩ :=
          hready (hcovered.of_sameAtoms hstands.context hstands.atoms)
        have hasserted := (hopened.coherent.asserted hassert).1
        refine ⟨?_, hfaithful.levels, fun hnil => hasserted.level.trans (hfaithful.ground hnil)⟩
        have hmarked := hasserted.marked_of_new hnew
        rwa [hfaithful.asserted, hstood] at hmarked
    · -- a new literal of an atom of the theory is not refused
      have hatom' : (c.opened level).theory.hasAtom literal.atom = true := by
        rwa [Solver.hasAtom, hopened.atoms.sides]
      obtain ⟨theory, hassert'⟩ := Solver.exists_assert hatom' (hready hcovered).2.2
      rw [hassert'] at hassert
      cases hassert
  · -- the literal is not one of the theory
    rename_i hnot
    rw [ensures_modify]
    refine ⟨h.noted hnext h.toLevelled rfl rfl rfl hlevels (fun mark hmark hatom => ?_)
      fun hcovered => absurd (hcovered _ (hagrees.atom_lt hmem)) hnot, rfl, rfl, .refl _⟩
    rcases List.mem_append.1 hmark with hold | hnew
    · exact h.held mark hold hatom
    · rw [List.mem_singleton.1 hnew] at hatom
      exact absurd hatom hnot

/-- The theory is told of the whole trail, and only if some atom is not one of its own can it refuse
to be. -/
theorem sync_spec (h : c.Mirrors) (hagrees : c.context.Agrees) (hfilled : c.context.trail.Filled) :
    Ensures sync c (fun _ c' => c'.Mirrors ∧ c'.context = c.context ∧
      c'.synced = c.context.trail.marked.length ∧ c.theory.SameAtoms c'.theory)
      fun _ => ¬ c.Covered := by
  have hall : ∀ (rest : List Literal) (c₁ : Coordinator ρ), c₁.Mirrors → c₁.context = c.context →
      c₁.untold.map Prod.fst = rest → Ensures (rest.forM syncLiteral) c₁ (fun _ c' => c'.Mirrors ∧
        c'.context = c.context ∧ c'.synced = c.context.trail.marked.length ∧
          c₁.theory.SameAtoms c'.theory) fun _ => ¬ c₁.Covered := by
    intro rest
    -- by induction on what the theory has not been told of
    induction rest with
    | nil =>
      intro c₁ h₁ hcontext hrest
      rw [ensures_forM_nil]
      have hle := List.drop_eq_nil_iff.1 (List.map_eq_nil_iff.1 hrest)
      rw [hcontext] at hle
      exact ⟨h₁, hcontext, Nat.le_antisymm (hcontext ▸ h₁.synced_le) hle, .refl _⟩
    | cons literal rest ih =>
      intro c₁ h₁ hcontext hrest
      obtain ⟨⟨other, level⟩, untold, huntold, heq, hrest'⟩ := List.map_eq_cons_iff.1 hrest
      obtain rfl : other = literal := heq
      have hnext : c₁.context.trail.marked[c₁.synced]? = some (other, level) := by
        rw [← List.head?_drop, ← Coordinator.untold, huntold]
        rfl
      rw [ensures_forM_cons]
      refine ensures_mono (syncLiteral_spec h₁ (hcontext ▸ hagrees) (hcontext ▸ hfilled) hnext) ?_
        fun _ => id
      rintro _ c₂ ⟨h₂, hcontext₂, hsynced, hatoms⟩
      have huntold₂ : c₂.untold.map Prod.fst = rest := by
        rw [Coordinator.untold, hcontext₂, hsynced, ← List.tail_drop, ← Coordinator.untold, huntold]
        exact hrest'
      refine ensures_mono (ih c₂ h₂ (hcontext₂.trans hcontext) huntold₂) ?_
        fun _ hnot hcovered => hnot (hcovered.sameAtoms hcontext₂ hatoms)
      rintro _ c₃ ⟨h₃, hcontext₃, hsynced₃, hatoms₃⟩
      exact ⟨h₃, hcontext₃, hsynced₃, hatoms.trans hatoms₃⟩
  unfold sync
  rw [ensures_bind, ensures_get]
  refine hall _ c h rfl ?_
  rw [untold, List.map_drop, map_fst_marked]

/-- If every atom is one of the theory, what it holds once it has been told of the whole trail is
the trail: the same literals in the same order, each on the same level. -/
theorem Mirrors.asserted_eq (h : c.Mirrors) (hcovered : c.Covered)
    (hsynced : c.synced = c.context.trail.marked.length) :
    c.theory.assertions.marked = c.context.trail.marked := by
  rw [(h.faithful hcovered).asserted, told, hsynced, List.take_length]

/-- What the trail holds of the atoms of the theory is asserted once the theory has been told of all
of it. -/
theorem Mirrors.value?_eq (h : c.Mirrors) (hagrees : c.context.Agrees)
    (hsynced : c.synced = c.context.trail.marked.length) {atom : Atom} {value : Bool}
    (hatom : c.theory.hasAtom atom = true) (hvalue : c.context.valuation atom = some value) :
    c.theory.value? atom = some value := by
  obtain ⟨level, hmark⟩ := hagrees.valuation_eq_some.1 hvalue
  have htold : c.told = c.context.trail.marked := by rw [told, hsynced, List.take_length]
  obtain ⟨_, _, k, _, hasserted⟩ := h.held _ (htold ▸ hmark) hatom
  exact h.coherent.exact.valued _ (mem_literals_iff.2 ⟨k, hasserted⟩)

end Satisfiability.Coordinator
