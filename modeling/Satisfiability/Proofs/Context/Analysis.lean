import Satisfiability.Proofs.Context.Propagation
import Satisfiability.Context.Analysis

/-!
# The analysis of conflicts

Resolution keeps a clause false above the ground and with a literal of the newest level
(`Resolvable`). The last literal of that level is not the first one of it while others remain, so it
has a reason, and the literals of the reason stand before it (`Pivot`); hence the place of the last
literal falls, and the analysis ends with a single literal of the level, with whatever each
resolution keeps (`resolveWithin_keeps`). One such thing is to hold in the models (`Upholds`).
Whatever the reasons are, a clause that comes out has the shape needed to store it
(`resolveWithin_ok`).
-/

namespace Satisfiability.Context

open Search Step Trail

variable {ρ : Type} {ctx ctx' : Context ρ} {literal : Literal} {clause other : Clause} {level : Nat}
  {key : ClauseKey} {late : Prop}

theorem mem_ofLevel :
    literal ∈ ctx.ofLevel level clause ↔
      literal ∈ clause ∧ ctx.atoms.level? literal.atom = some level := by simp [ofLevel]

/-! ## Resolvents -/

theorem mem_merge {pivot : Option Atom} :
    literal ∈ ctx.merge pivot clause other ↔ literal ∈ clause ∨
      (literal ∈ other ∧ some literal.atom ≠ pivot ∧
        ctx.atoms.level? literal.atom ≠ some 0) := by
  unfold merge
  induction other generalizing clause with
  | nil => simp
  | cons first rest ih =>
    rw [List.foldl_cons, ih]
    by_cases hpivot : some first.atom = pivot
    · simp only [hpivot, beq_self_eq_true, Bool.true_or, if_true]
      grind
    · by_cases hlevel : ctx.atoms.level? first.atom = some 0
      · simp only [hlevel, beq_self_eq_true, Bool.or_true, Bool.true_or, if_true]
        grind
      · by_cases hmem : first ∈ clause
        · simp only [List.contains_eq_mem, hmem, decide_true, Bool.or_true, if_true]
          grind
        · simp only [List.contains_eq_mem, hmem, decide_false, beq_eq_false_iff_ne.2 hpivot,
            beq_eq_false_iff_ne.2 hlevel, Bool.or_false, Bool.false_eq_true, if_false,
            List.mem_append, List.mem_singleton]
          grind

theorem nodup_merge {pivot : Option Atom} (hnodup : clause.Nodup) :
    (ctx.merge pivot clause other).Nodup := by
  unfold merge
  induction other generalizing clause with
  | nil => exact hnodup
  | cons first rest ih =>
    rw [List.foldl_cons]
    apply ih
    split
    · exact hnodup
    · rename_i hnot
      have hmem : first ∉ clause := by
        intro hmem
        simp [hmem] at hnot
      simpa [List.nodup_append] using ⟨hnodup, fun x hx heq => hmem (heq ▸ hx)⟩

theorem mem_resolve {pivot : Atom} :
    literal ∈ ctx.resolve pivot clause other ↔ (literal ∈ clause ∧ literal.atom ≠ pivot) ∨
      (literal ∈ other ∧ literal.atom ≠ pivot ∧ ctx.atoms.level? literal.atom ≠ some 0) := by
  simp [resolve, mem_merge]

theorem foldl_latest {replace : Option Literal → Literal → Option Literal}
    (hreplace : ∀ best literal, replace (some best) literal =
      if ctx.lateness best ≤ ctx.lateness literal then some literal else some best)
    (rest : List Literal) (best : Literal) :
    ∃ last ∈ best :: rest, rest.foldl replace (some best) = some last ∧
      ∀ literal ∈ best :: rest, ctx.lateness literal ≤ ctx.lateness last := by
  -- the best of a prefix is passed on, so the induction is over any best
  induction rest generalizing best with
  | nil => exact ⟨best, List.mem_cons_self, rfl, by simp⟩
  | cons first rest ih =>
    rw [List.foldl_cons, hreplace]
    by_cases hle : ctx.lateness best ≤ ctx.lateness first
    · obtain ⟨last, hmem, hlast, hall⟩ := ih first
      refine ⟨last, List.mem_cons_of_mem _ hmem, by rw [if_pos hle, hlast], ?_⟩
      intro literal hliteral
      rcases List.mem_cons.1 hliteral with rfl | hliteral
      · exact Nat.le_trans hle (hall first List.mem_cons_self)
      · exact hall literal hliteral
    · obtain ⟨last, hmem, hlast, hall⟩ := ih best
      refine ⟨last, by grind, by rw [if_neg hle, hlast], ?_⟩
      intro literal hliteral
      rcases List.mem_cons.1 hliteral with rfl | hliteral
      · exact hall literal List.mem_cons_self
      · rcases List.mem_cons.1 hliteral with rfl | hliteral
        · exact Nat.le_trans (Nat.le_of_not_le hle) (hall best List.mem_cons_self)
        · exact hall literal (List.mem_cons_of_mem _ hliteral)

theorem latest?_spec (ctx : Context ρ) (literals : List Literal) (hne : literals ≠ []) :
    ∃ last ∈ literals, ctx.latest? literals = some last ∧
      ∀ literal ∈ literals, ctx.lateness literal ≤ ctx.lateness last := by
  cases literals with
  | nil => exact absurd rfl hne
  | cons first rest => exact foldl_latest (fun _ _ => rfl) rest first

/-! ## The shape of what is learnt -/

structure Proper (ctx : Context ρ) (clause : Clause) : Prop where
  nodup : clause.Nodup
  atoms : ∀ literal ∈ clause, literal.atom < ctx.atoms.count

theorem Known.proper_merge {literals : Clause} {pivot : Option Atom} (hknown : ctx.Known key)
    (hliterals : ctx.clauses.literals? key = some literals) (hclause : ctx.Proper clause) :
    ctx.Proper (ctx.merge pivot clause literals) := by
  obtain ⟨literals', hliterals', hatoms⟩ := hknown
  rw [hliterals] at hliterals'
  cases hliterals'
  refine ⟨nodup_merge hclause.nodup, fun literal hmem => ?_⟩
  rcases mem_merge.1 hmem with hmem | ⟨hmem, _⟩
  · exact hclause.atoms literal hmem
  · exact hatoms literal hmem

/-- Whatever comes out of the analysis has a single literal of the level. -/
theorem resolveWithin_ok (hknown : ∀ atom key, ctx.graph.reason? atom = some key → ctx.Known key)
    {budget : Nat} {asserted : Literal} (hclause : ctx.Proper clause)
    (hrun : ctx.resolveWithin level budget clause = .ok (other, asserted)) :
    ctx.Proper other ∧ ctx.ofLevel level other = [asserted] := by
  induction budget generalizing clause with
  | zero => exact absurd hrun (by simp [resolveWithin])
  | succ budget ih =>
    unfold resolveWithin at hrun
    split at hrun
    · exact absurd hrun (by simp)
    · rename_i hsingle
      cases hrun
      exact ⟨hclause, hsingle⟩
    · split at hrun
      · exact absurd hrun (by simp)
      · split at hrun
        · exact absurd hrun (by simp)
        · rename_i reason hreason
          split at hrun
          · exact absurd hrun (by simp)
          · rename_i literals hliterals
            -- what is resolved is proper again, whatever the reason says
            refine ih ?_ hrun
            have hfilter : ∀ p, ctx.Proper (clause.filter p) := fun p =>
              ⟨hclause.nodup.filter p, fun literal hmem =>
                hclause.atoms literal (List.mem_filter.1 hmem).1⟩
            exact (hknown _ _ hreason).proper_merge hliterals (hfilter _)

/-! ## Resolution of a false clause -/

/-- The literals of the clause are false above the ground, one of them on the newest level. -/
structure Resolvable (ctx : Context ρ) (clause : Clause) : Prop where
  proper : ctx.Proper clause
  fails : ∀ literal ∈ clause, ∃ level, 0 < level ∧ (-literal, level) ∈ ctx.trail.marked
  newest : ∃ literal ∈ clause, (-literal, ctx.trail.level) ∈ ctx.trail.marked

theorem Resolvable.eq_of_atom (h : ctx.Resolvable clause) (hagrees : ctx.Agrees)
    {a b : Literal} (ha : a ∈ clause) (hb : b ∈ clause) (hatom : a.atom = b.atom) : a = b := by
  obtain ⟨i, _, hi⟩ := h.fails a ha
  obtain ⟨j, _, hj⟩ := h.fails b hb
  have heq := (hagrees.unique_mem hi hj hatom).1
  rw [← Literal.neg_neg a, heq, Literal.neg_neg]

theorem Agrees.level?_eq_zero_iff (h : ctx.Agrees) (hmem : (-literal, level) ∈ ctx.trail.marked) :
    ctx.atoms.level? literal.atom = some 0 ↔ level = 0 := by
  rw [h.level?_of_neg_mem hmem, Option.some.injEq]

theorem Agrees.lateness_of_mark (h : ctx.Agrees) {index : Nat}
    (hmark : ctx.trail.marked[index]? = some (-literal, level)) :
    ctx.lateness literal = index + 1 := by
  rw [lateness, ← Literal.atom_neg, h.position?_of_mark hmark]

/-- The clause is a reason for the literal of the newest level at a place of the trail to be false:
its other literals are false before it. -/
structure ReasonAt (ctx : Context ρ) (place : Nat) (last : Literal) (literals : Clause) : Prop where
  mark : ctx.trail.marked[place]? = some (-last, ctx.trail.level)
  before : ∀ x ∈ literals, x ≠ -last → ∃ i < place, ∃ level, ctx.trail.marked[i]? = some (-x, level)

theorem ReasonAt.pivot {place : Nat} {last : Literal} {literals : Clause}
    (h : ctx.ReasonAt place last literals) (hagrees : ctx.Agrees) :
    ∀ x ∈ literals, x.atom = last.atom → x = -last := by
  intro x hx hatom
  by_cases heq : x = -last
  · exact heq
  · obtain ⟨i, hi, level, hmark⟩ := h.before x hx heq
    have hplaces := (hagrees.unique hmark h.mark hatom).2.2
    omega

/-- The model satisfies all clauses, and what is true without a decision is true in it. -/
structure Upholds (ctx : Context ρ) (model : Atom → Bool) : Prop where
  satisfied : ∀ key clause, ctx.clauses.Has key clause → Satisfied model clause
  ground : ∀ literal, (literal, 0) ∈ ctx.trail.marked → model literal.atom = literal.positive

theorem Sound.upholds {M : (Atom → Bool) → Prop} (h : ctx.Sound M) {model : Atom → Bool}
    (hmodel : M model) : ctx.Upholds model :=
  ⟨fun key clause hhas => h.entailed key clause hhas model hmodel, h.ground hmodel⟩

/-- What a step of an analysis resolves on: the latest of several literals of the newest level, with
the clause that is the reason of its negation. -/
structure Pivot (ctx : Context ρ) (clause : Clause) (last : Literal) (place : Nat)
    (literals : Clause) : Prop where
  mem : last ∈ ctx.ofLevel ctx.trail.level clause
  latest : ∀ x ∈ ctx.ofLevel ctx.trail.level clause, ctx.lateness x ≤ ctx.lateness last
  several : ∃ second ∈ ctx.ofLevel ctx.trail.level clause, second ≠ last
  reason : ∃ key, ctx.graph.reason? last.atom = some key ∧ ctx.clauses.Has key literals
  reasonAt : ctx.ReasonAt place last literals

section resolvable

variable {last second : Literal} (h : ctx.Resolvable clause) (hagrees : ctx.Agrees)

include h hagrees

/-- A literal of the newest level in a false clause is false at a place of that level. -/
theorem Resolvable.exists_place (hmem : literal ∈ ctx.ofLevel ctx.trail.level clause) :
    ∃ i : Nat, ctx.trail.marked[i]? = some (-literal, ctx.trail.level) := by
  obtain ⟨hmem, hlevel⟩ := mem_ofLevel.1 hmem
  obtain ⟨level, _, hmark⟩ := h.fails literal hmem
  rw [hagrees.level?_of_neg_mem hmark, Option.some.injEq] at hlevel
  rw [hlevel] at hmark
  exact List.mem_iff_getElem?.1 hmark

omit h in
theorem lt_place_of_latest (hlatest : ∀ x ∈ ctx.ofLevel ctx.trail.level clause,
      ctx.lateness x ≤ ctx.lateness last) {place : Nat}
    (hmark : ctx.trail.marked[place]? = some (-last, ctx.trail.level)) {x : Literal} (hx : x ∈ clause)
    (hne : x ≠ last) {i : Nat} (hi : ctx.trail.marked[i]? = some (-x, ctx.trail.level)) :
    i < place := by
  have hmem : x ∈ ctx.ofLevel ctx.trail.level clause :=
    mem_ofLevel.2 ⟨hx, hagrees.level?_of_neg_mem (List.mem_of_getElem? hi)⟩
  have hle := hlatest x hmem
  rw [hagrees.lateness_of_mark hi, hagrees.lateness_of_mark hmark] at hle
  -- one place has one literal
  have hdistinct : i ≠ place := by
    rintro rfl
    rw [hi, Option.some.injEq, Prod.mk.injEq] at hmark
    apply hne
    rw [← Literal.neg_neg x, hmark.1, Literal.neg_neg]
  omega

theorem Resolvable.exists_pivot (hjustified : ctx.Justified)
    (hlast : last ∈ ctx.ofLevel ctx.trail.level clause)
    (hlatest : ∀ x ∈ ctx.ofLevel ctx.trail.level clause, ctx.lateness x ≤ ctx.lateness last)
    (hsecond : second ∈ ctx.ofLevel ctx.trail.level clause) (hne : second ≠ last) :
    ∃ place literals, ctx.Pivot clause last place literals := by
  obtain ⟨place, hmark⟩ := h.exists_place hagrees hlast
  have hreason := hjustified place (-last) ctx.trail.level hmark
  rw [Literal.atom_neg] at hreason
  split at hreason
  · -- a decision would be the first of its level, but the second literal stands before it
    obtain ⟨i, hi⟩ := h.exists_place hagrees hsecond
    have hlower := hreason.2 i
      (lt_place_of_latest hagrees hlatest hmark (mem_ofLevel.1 hsecond).1 hne hi) _ hi
    exact absurd hlower (Nat.lt_irrefl _)
  · rename_i reason hsome
    obtain ⟨literals, hhas, _, hothers⟩ := hreason
    exact ⟨place, literals, hlast, hlatest, ⟨second, hsecond, hne⟩, ⟨reason, hsome, hhas⟩, hmark,
      hothers⟩

/-- A model of a false clause, and of what it is resolved with, is one of the resolvent. -/
theorem Resolvable.satisfied_resolve {model : Atom → Bool} (hmodel : ctx.Upholds model) {place : Nat}
    {literals : Clause} (hpivot : ctx.Pivot clause last place literals)
    (hclause : Satisfied model clause) :
    Satisfied model (ctx.resolve last.atom clause literals) := by
  have hlast := (mem_ofLevel.1 hpivot.mem).1
  have hreason := hpivot.reasonAt
  obtain ⟨a, ha, hvalue⟩ := hclause
  obtain ⟨key, _, hhas⟩ := hpivot.reason
  by_cases hatom : a.atom = last.atom
  · -- the pivot is true in the model, so the reason must hold by another literal
    have heq := h.eq_of_atom hagrees ha hlast hatom
    subst heq
    obtain ⟨b, hb, hvalue'⟩ := hmodel.satisfied key literals hhas
    have hne : b ≠ -a := by
      rintro rfl
      rw [Literal.atom_neg, Literal.positive_neg, hvalue] at hvalue'
      exact absurd hvalue' (by simp)
    obtain ⟨i, _, level, hi⟩ := hreason.before b hb hne
    have hmark := List.mem_of_getElem? hi
    refine ⟨b, mem_resolve.2 (Or.inr ⟨hb, fun hatom' => hne (hreason.pivot hagrees b hb hatom'), ?_⟩),
      hvalue'⟩
    -- a literal of level zero is left out, but it is false in every model
    intro hzero
    rw [(hagrees.level?_eq_zero_iff hmark).1 hzero] at hmark
    have hground := hmodel.ground (-b) hmark
    rw [Literal.atom_neg, Literal.positive_neg, hvalue'] at hground
    exact absurd hground (by simp)
  · exact ⟨a, mem_resolve.2 (Or.inl ⟨ha, hatom⟩), hvalue⟩

theorem Resolvable.resolve (hknown : ∀ atom key, ctx.graph.reason? atom = some key → ctx.Known key)
    {place : Nat} {literals : Clause} (hpivot : ctx.Pivot clause last place literals) :
    ctx.Resolvable (ctx.resolve last.atom clause literals) := by
  have hreason := hpivot.reasonAt
  obtain ⟨second, hsecond, hne⟩ := hpivot.several
  obtain ⟨key, hsome, hhas⟩ := hpivot.reason
  refine ⟨?_, fun x hx => ?_, ?_⟩
  · refine (hknown _ _ hsome).proper_merge (ClauseStore.literals?_of_has hhas)
      ⟨h.proper.nodup.filter _, ?_⟩
    exact fun x hx => h.proper.atoms x (List.mem_filter.1 hx).1
  · rcases mem_resolve.1 hx with ⟨hx, _⟩ | ⟨hx, hatom, hzero⟩
    · exact h.fails x hx
    · have hxne : x ≠ -last := fun heq => hatom (by rw [heq, Literal.atom_neg])
      obtain ⟨i, _, level, hmark⟩ := hreason.before x hx hxne
      have hmem := List.mem_of_getElem? hmark
      exact ⟨level, Nat.pos_of_ne_zero fun heq =>
        hzero ((hagrees.level?_eq_zero_iff hmem).2 heq), hmem⟩
  · obtain ⟨i, hi⟩ := h.exists_place hagrees hsecond
    have hmem := (mem_ofLevel.1 hsecond).1
    have hatom : second.atom ≠ last.atom := fun heq =>
      hne (h.eq_of_atom hagrees hmem (mem_ofLevel.1 hpivot.mem).1 heq)
    exact ⟨second, mem_resolve.2 (Or.inl ⟨hmem, hatom⟩), List.mem_of_getElem? hi⟩

omit h in
theorem Pivot.earlier {place : Nat} {literals : Clause}
    (hpivot : ctx.Pivot clause last place literals) {x : Literal}
    (hx : x ∈ ctx.resolve last.atom clause literals) {i : Nat}
    (hi : ctx.trail.marked[i]? = some (-x, ctx.trail.level)) : i < place := by
  rcases mem_resolve.1 hx with ⟨hx, hatom⟩ | ⟨hx, hatom, _⟩
  · exact lt_place_of_latest hagrees hpivot.latest hpivot.reasonAt.mark hx
      (fun heq => hatom (by rw [heq])) hi
  · have hxne : x ≠ -last := fun heq => hatom (by rw [heq, Literal.atom_neg])
    obtain ⟨j, hj, level, hmark⟩ := hpivot.reasonAt.before x hx hxne
    rw [(hagrees.unique hi hmark rfl).2.2]
    exact hj

end resolvable

section keeps

variable (hintact : ctx.Intact) (hjustified : ctx.Justified) {P : Clause → Prop}
  (hstep : ∀ clause last place literals, ctx.Resolvable clause → P clause →
    ctx.Pivot clause last place literals → P (ctx.resolve last.atom clause literals))

include hintact hjustified hstep

/-- The resolution of a false clause succeeds within as many steps as there are literals on the
trail. What comes out is false, and whatever each step keeps is true of it. -/
theorem resolveWithin_keeps (budget : Nat) (h : ctx.Resolvable clause) (hP : P clause)
    (hbudget : ∀ literal ∈ clause, ∀ i : Nat, ctx.trail.marked[i]? =
      some (-literal, ctx.trail.level) → i < budget) :
    ∃ learnt asserted, ctx.resolveWithin ctx.trail.level budget clause = .ok (learnt, asserted) ∧
      ctx.Resolvable learnt ∧ ctx.ofLevel ctx.trail.level learnt = [asserted] ∧ P learnt := by
  -- the budget bounds the place of the latest literal of the level, which falls with each step
  induction budget generalizing clause with
  | zero =>
    obtain ⟨literal, hmem, hmark⟩ := h.newest
    obtain ⟨i, hi⟩ := List.mem_iff_getElem?.1 hmark
    exact absurd (hbudget literal hmem i hi) (Nat.not_lt_zero i)
  | succ budget ih =>
    have hagrees := hintact.agrees
    obtain ⟨newest, hnewest, hmark⟩ := h.newest
    have hmem : newest ∈ ctx.ofLevel ctx.trail.level clause :=
      mem_ofLevel.2 ⟨hnewest, hagrees.level?_of_neg_mem hmark⟩
    rw [resolveWithin]
    rcases hcurrent : ctx.ofLevel ctx.trail.level clause with _ | ⟨first, _ | ⟨second, rest⟩⟩
    · rw [hcurrent] at hmem
      exact absurd hmem List.not_mem_nil
    · -- a single literal of the level is what the analysis ends with
      exact ⟨clause, first, rfl, h, hcurrent, hP⟩
    · obtain ⟨last, hlast, hlatest, hall⟩ :=
        latest?_spec ctx (ctx.ofLevel ctx.trail.level clause) (by simp [hcurrent])
      obtain ⟨x, hx, hne⟩ : ∃ x ∈ ctx.ofLevel ctx.trail.level clause, x ≠ last := by
        have hnodup := h.proper.nodup.filter fun literal =>
          ctx.atoms.level? literal.atom == some ctx.trail.level
        rw [← ofLevel, hcurrent] at hnodup
        rw [hcurrent]
        by_cases heq : first = last
        · refine ⟨second, by simp, fun heq' => ?_⟩
          rw [heq, heq'] at hnodup
          simp at hnodup
        · exact ⟨first, by simp, heq⟩
      -- with a second one the latest has a reason, and the resolvent stands before it
      obtain ⟨place, literals, hpivot⟩ := h.exists_pivot hagrees hjustified hlast hall hx hne
      obtain ⟨key, hreason, hhas⟩ := hpivot.reason
      have hlt := hbudget last (mem_ofLevel.1 hlast).1 place hpivot.reasonAt.mark
      obtain ⟨learnt, asserted, hrun, hlearnt⟩ := ih (h.resolve hagrees hintact.known hpivot)
        (hstep clause last place literals h hP hpivot)
        fun x hx i hi => by have := hpivot.earlier hagrees hx hi; omega
      refine ⟨learnt, asserted, ?_, hlearnt⟩
      rw [hcurrent] at hlatest
      simpa only [hlatest, hreason, ClauseStore.literals?_of_has hhas] using hrun

end keeps

/-! ## What is learnt -/

theorem lt_roundBudget (atoms : Nat) : atoms < roundBudget atoms := by
  have hpow : atoms + 2 < (atoms + 2) ^ (atoms + 2) := Nat.lt_pow_self (by omega)
  change atoms < (atoms + 2) ^ (atoms + 2)
  omega

theorem foldl_max_le {bound : Nat} (levels : List Nat) (start : Nat) :
    levels.foldl max start ≤ bound ↔ start ≤ bound ∧ ∀ level ∈ levels, level ≤ bound := by
  induction levels generalizing start with
  | nil => simp
  | cons first rest ih =>
    rw [List.foldl_cons, ih, Nat.max_le]
    simp [and_assoc]

theorem foldl_max_mem (levels : List Nat) (start : Nat) :
    levels.foldl max start = start ∨ levels.foldl max start ∈ levels := by
  induction levels generalizing start with
  | nil => exact Or.inl rfl
  | cons first rest ih =>
    rw [List.foldl_cons]
    rcases ih (max start first) with heq | hmem
    · rw [heq]
      rcases Nat.le_total start first with hle | hle
      · rw [Nat.max_eq_right hle]
        exact Or.inr List.mem_cons_self
      · exact Or.inl (Nat.max_eq_left hle)
    · exact Or.inr (List.mem_cons_of_mem _ hmem)

theorem le_assertionLevel {asserted : Literal} (hmem : literal ∈ clause)
    (hne : literal.atom ≠ asserted.atom) (hlevel : ctx.atoms.level? literal.atom = some level) :
    level ≤ ctx.assertionLevel asserted clause := by
  refine ((foldl_max_le _ 0).1 (Nat.le_refl _)).2 level ?_
  rw [List.mem_filterMap]
  exact ⟨literal, List.mem_filter.2 ⟨hmem, by simpa using hne⟩, hlevel⟩

theorem assertionLevel_mem (ctx : Context ρ) (asserted : Literal) (clause : Clause) :
    ctx.assertionLevel asserted clause = 0 ∨ ∃ other ∈ clause, other.atom ≠ asserted.atom ∧
      ctx.atoms.level? other.atom = some (ctx.assertionLevel asserted clause) := by
  refine (foldl_max_mem _ 0).imp_right fun hmem => ?_
  obtain ⟨other, hother, hlevel⟩ := List.mem_filterMap.1 hmem
  obtain ⟨hother, hne⟩ := List.mem_filter.1 hother
  exact ⟨other, hother, by simpa using hne, hlevel⟩

theorem assertionLevel_lt (hagrees : ctx.Agrees) {asserted : Literal}
    (hlevel : 0 < ctx.trail.level)
    (hsingle : ctx.ofLevel ctx.trail.level clause = [asserted]) :
    ctx.assertionLevel asserted clause < ctx.trail.level := by
  have hle : ctx.assertionLevel asserted clause ≤ ctx.trail.level - 1 := by
    refine (foldl_max_le _ 0).2 ⟨Nat.zero_le _, fun level hmem => ?_⟩
    obtain ⟨literal, hliteral, hsome⟩ := List.mem_filterMap.1 hmem
    obtain ⟨hclause, hne⟩ := List.mem_filter.1 hliteral
    obtain ⟨value, hmark⟩ := hagrees.level?_eq_some.1 hsome
    have hbound := level_le hmark
    simp only at hbound
    have hnewest : level ≠ ctx.trail.level := by
      rintro rfl
      have hcurrent := mem_ofLevel.2 ⟨hclause, hsome⟩
      rw [hsingle, List.mem_singleton] at hcurrent
      simp [hcurrent] at hne
    omega
  omega

/-- The level is the ground, or one on which another literal of the clause has its value. -/
def Highest (ctx : Context ρ) (clause : Clause) (asserted : Literal) (target : Nat) : Prop :=
  target = 0 ∨ ∃ other ∈ clause, other.atom ≠ asserted.atom ∧
    ctx.atoms.level? other.atom = some target

/-- The clause can be stored on the return to a level, and one of its literals given a value there
that its atom has lost. -/
structure Assertable (ctx : Context ρ) (clause : Clause) (asserted : Literal) (target : Nat) :
    Prop where
  proper : ctx.Proper clause
  mem : asserted ∈ clause
  above : ∃ level, ctx.atoms.level? asserted.atom = some level ∧ target < level
  single : clause = [asserted] → target = 0
  highest : ctx.Highest clause asserted target

/-- The other literals of the clause were false by the level, so that it forces the literal there.
-/
def ForcedBy (ctx : Context ρ) (clause : Clause) (asserted : Literal) (target : Nat) : Prop :=
  ∀ other ∈ clause, other ≠ asserted → TrueBy ctx.trail.marked target (-other)

theorem Assertable.target_lt {asserted : Literal} {target : Nat}
    (h : ctx.Assertable clause asserted target) (hagrees : ctx.Agrees) :
    target < ctx.trail.level := by
  obtain ⟨level, hlevel, hlt⟩ := h.above
  obtain ⟨value, hmark⟩ := hagrees.level?_eq_some.1 hlevel
  exact Nat.lt_of_lt_of_le hlt (level_le hmark)

/-- What is false on the newest level is false above the one that the search returns to. -/
theorem Assertable.lt_of_newest {asserted : Literal} {target level : Nat}
    (h : ctx.Assertable clause asserted target) (hagrees : ctx.Agrees)
    (hnewest : (literal, ctx.trail.level) ∈ ctx.trail.marked)
    (hmark : (literal, level) ∈ ctx.trail.marked) : target < level := by
  rw [← (hagrees.unique_mem hnewest hmark rfl).2]
  exact h.target_lt hagrees

/-- A clause in conflict can be resolved once what is false without a decision is left out. -/
theorem InConflict.resolvable (hconflict : ctx.InConflict key late) (hagrees : ctx.Agrees)
    (hlevel : 0 < ctx.trail.level) {watched : WatchedClause}
    (hget : ctx.clauses.get? key = some watched) :
    ctx.Resolvable (ctx.merge none [] watched.literals) := by
  obtain ⟨watched', hget', hfails, newest, hnewest, hmark⟩ := hconflict.fails
  rw [hget] at hget'
  cases hget'
  have hliterals := ClauseStore.literals?_of_has (ClauseStore.has_of_get? hget)
  refine ⟨(hagrees.known hget).proper_merge hliterals ⟨List.nodup_nil, by simp⟩, ?_, ?_⟩
  · intro literal hmem
    rcases mem_merge.1 hmem with hmem | ⟨hmem, _, hzero⟩
    · exact absurd hmem List.not_mem_nil
    · obtain ⟨level, hfalse⟩ := hfails literal hmem
      exact ⟨level, Nat.pos_of_ne_zero fun heq =>
        hzero ((hagrees.level?_eq_zero_iff hfalse).2 heq), hfalse⟩
  · refine ⟨newest, mem_merge.2 (Or.inr ⟨hnewest, by simp, fun hzero => ?_⟩), hmark⟩
    have := (hagrees.level?_eq_zero_iff hmark).1 hzero
    omega

/-- Wherever a clause holds in the models, it holds without the literals false on the ground. -/
theorem Upholds.satisfied_merge {model : Atom → Bool} (hmodel : ctx.Upholds model)
    (hagrees : ctx.Agrees)
    (hfails : ∀ literal ∈ clause, ∃ level, (-literal, level) ∈ ctx.trail.marked)
    (hclause : Satisfied model clause) : Satisfied model (ctx.merge none [] clause) := by
  obtain ⟨literal, hmem, hvalue⟩ := hclause
  obtain ⟨level, hfalse⟩ := hfails literal hmem
  refine ⟨literal, mem_merge.2 (Or.inr ⟨hmem, by simp, fun hzero => ?_⟩), hvalue⟩
  rw [(hagrees.level?_eq_zero_iff hfalse).1 hzero] at hfalse
  have hground := hmodel.ground (-literal) hfalse
  rw [Literal.atom_neg, Literal.positive_neg, hvalue] at hground
  exact absurd hground (by simp)

theorem Agrees.lt_budget (hagrees : ctx.Agrees) {i : Nat} {mark : Literal × Nat}
    (hi : ctx.trail.marked[i]? = some mark) : i < roundBudget ctx.atoms.count := by
  have hlt := (List.getElem?_eq_some_iff.1 hi).1
  have hle := hagrees.length_le
  have := lt_roundBudget ctx.atoms.count
  omega

theorem analyse_ground (hlevel : ctx.trail.level = 0) : ctx.analyse key = .ok .fundamental := by
  simp [analyse, hlevel]

theorem level_pos_of_analyse {learnt : Asserting} (h : ctx.analyse key = .ok (.learnt learnt)) :
    0 < ctx.trail.level := by
  refine Nat.pos_of_ne_zero fun hlevel => ?_
  rw [analyse_ground hlevel] at h
  cases h

theorem analyse_eq (hfilled : ctx.trail.Filled) (hlevel : 0 < ctx.trail.level)
    {watched : WatchedClause} (hget : ctx.clauses.get? key = some watched) :
    ctx.analyse key = match ctx.resolveWithin ctx.trail.level (roundBudget ctx.atoms.count)
        (ctx.merge none [] watched.literals) with
      | .error fault => .error fault
      | .ok (clause, asserted) =>
        .ok (.learnt { clause, asserted, level := ctx.assertionLevel asserted clause }) := by
  have hliterals := ClauseStore.literals?_of_has (ClauseStore.has_of_get? hget)
  have hdecision : ctx.trail.decision?.isNone = false := by
    rw [← Option.not_isSome, hfilled.decision?_isSome hlevel]
    rfl
  rcases hresolve : ctx.resolveWithin ctx.trail.level (roundBudget ctx.atoms.count)
    (ctx.merge none [] watched.literals) with fault | ⟨clause, asserted⟩ <;>
  simp only [analyse, Nat.ne_of_gt hlevel, if_false, hliterals, hdecision, Bool.false_eq_true,
    hresolve]

/-- The analysis of a conflict above the ground learns a clause with a single literal of the newest
level, and what each resolution keeps. -/
theorem analyse_keeps (hintact : ctx.Intact) (hjustified : ctx.Justified) {P : Clause → Prop}
    (hstep : ∀ clause last place literals, ctx.Resolvable clause → P clause →
      ctx.Pivot clause last place literals → P (ctx.resolve last.atom clause literals))
    (hconflict : ctx.InConflict key late) (hlevel : 0 < ctx.trail.level) {watched : WatchedClause}
    (hget : ctx.clauses.get? key = some watched)
    (hP : P (ctx.merge none [] watched.literals)) :
    ∃ learnt, ctx.analyse key = .ok (.learnt learnt) ∧ ctx.Resolvable learnt.clause ∧
      ctx.ofLevel ctx.trail.level learnt.clause = [learnt.asserted] ∧
        learnt.level = ctx.assertionLevel learnt.asserted learnt.clause ∧ P learnt.clause := by
  obtain ⟨clause, asserted, hrun, hlearnt, hsingle, hkept⟩ :=
    resolveWithin_keeps hintact hjustified hstep _
      (hconflict.resolvable hintact.agrees hlevel hget) hP fun _ _ _ => hintact.agrees.lt_budget
  rw [analyse_eq hintact.filled hlevel hget, hrun]
  exact ⟨_, rfl, hlearnt, hsingle, rfl, hkept⟩

/-- What is learnt is false, and the literals besides the asserted one were so by its level. -/
theorem Resolvable.forcedBy {learnt : Asserting} (h : ctx.Resolvable learnt.clause)
    (hagrees : ctx.Agrees) (hmem : learnt.asserted ∈ learnt.clause)
    (hlevel : learnt.level = ctx.assertionLevel learnt.asserted learnt.clause) :
    ctx.ForcedBy learnt.clause learnt.asserted learnt.level := by
  intro other hother hne
  obtain ⟨level, _, hmark⟩ := h.fails other hother
  have hatom : other.atom ≠ learnt.asserted.atom := fun heq =>
    hne (h.eq_of_atom hagrees hother hmem heq)
  rw [hlevel]
  exact ⟨level, le_assertionLevel hother hatom (hagrees.level?_of_neg_mem hmark), hmark⟩

/-- The analysis of a conflict above the ground learns a clause; it fails only if some literal of
the trail is not justified. -/
theorem analyse_spec (hintact : ctx.Intact) (hconflict : ctx.InConflict key late)
    (hlevel : 0 < ctx.trail.level) :
    match ctx.analyse key with
    | .error _ => ¬ ctx.Justified
    | .ok .fundamental => False
    | .ok (.learnt learnt) => ctx.Assertable learnt.clause learnt.asserted learnt.level ∧
        (ctx.Justified → ctx.ForcedBy learnt.clause learnt.asserted learnt.level ∧
          ∀ model, ctx.Upholds model → Satisfied model learnt.clause) := by
  have hagrees := hintact.agrees
  obtain ⟨watched, hget, hfails, _⟩ := hconflict.fails
  -- where all literals are justified, the clause learnt holds in all models
  have hkeeps := fun hjustified : ctx.Justified => analyse_keeps hintact hjustified
    (P := fun clause => ∀ model, ctx.Upholds model → Satisfied model clause)
    (fun clause last place literals hclause hentailed hpivot model hmodel =>
      hclause.satisfied_resolve hagrees hmodel hpivot (hentailed model hmodel))
    hconflict hlevel hget fun model hmodel => hmodel.satisfied_merge hagrees hfails
      (hmodel.satisfied key watched.literals (ClauseStore.has_of_get? hget))
  rw [analyse_eq hintact.filled hlevel hget] at hkeeps ⊢
  rcases hrun : ctx.resolveWithin ctx.trail.level (roundBudget ctx.atoms.count)
    (ctx.merge none [] watched.literals) with fault | ⟨clause, asserted⟩
  · intro hjustified
    obtain ⟨learnt, hanalyse, _⟩ := hkeeps hjustified
    rw [hrun] at hanalyse
    exact absurd hanalyse (by simp)
  · obtain ⟨hproper, hsingle⟩ := resolveWithin_ok hintact.known
      (hconflict.resolvable hagrees hlevel hget).proper hrun
    have hasserted : asserted ∈ ctx.ofLevel ctx.trail.level clause := by
      rw [hsingle]
      exact List.mem_cons_self
    obtain ⟨hmem, hnewest⟩ := mem_ofLevel.1 hasserted
    refine ⟨⟨hproper, hmem, ⟨_, hnewest, assertionLevel_lt hagrees hlevel hsingle⟩, ?_,
      assertionLevel_mem ctx asserted clause⟩, ?_⟩
    · intro heq
      simp only at heq
      simp [assertionLevel, heq]
    · intro hjustified
      obtain ⟨learnt, hanalyse, hlearnt, _, heq, hentailed⟩ := hkeeps hjustified
      rw [hrun] at hanalyse
      cases hanalyse
      exact ⟨hlearnt.forcedBy hagrees hmem heq, hentailed⟩

/-! ## Resolution without an end -/

/-- What one step of a resolution makes of a clause with several literals of the level. -/
def resolvent? (ctx : Context ρ) (level : Nat) (clause : Clause) : Option Clause :=
  match ctx.ofLevel level clause with
  | first :: second :: rest => do
    let last ← ctx.latest? (first :: second :: rest)
    let reason ← ctx.graph.reason? last.atom
    let literals ← ctx.clauses.literals? reason
    return ctx.resolve last.atom clause literals
  | _ => none

theorem resolveWithin_succ {level : Nat} {clause clause' : Clause}
    (h : ctx.resolvent? level clause = some clause') (budget : Nat) :
    ctx.resolveWithin level (budget + 1) clause = ctx.resolveWithin level budget clause' := by
  unfold resolvent? at h
  rw [resolveWithin]
  split at h
  · rename_i first second rest heq
    obtain ⟨last, hlast, h⟩ := Option.bind_eq_some_iff.1 h
    obtain ⟨reason, hreason, h⟩ := Option.bind_eq_some_iff.1 h
    obtain ⟨literals, hliterals, h⟩ := Option.bind_eq_some_iff.1 h
    cases h
    simp only [heq, hlast, hreason, hliterals]
  · cases h

theorem resolveWithin_outOfFuel {level : Nat} {clause : Clause} {clauses : List Clause}
    (hstep : ∀ clause ∈ clauses, ∃ clause' ∈ clauses, ctx.resolvent? level clause = some clause')
    (budget : Nat) (hmem : clause ∈ clauses) :
    ctx.resolveWithin level budget clause = .error .outOfFuel := by
  induction budget generalizing clause with
  | zero => rfl
  | succ budget ih =>
    obtain ⟨clause', hmem', hresolvent⟩ := hstep clause hmem
    rw [resolveWithin_succ hresolvent]
    exact ih hmem'

end Satisfiability.Context
