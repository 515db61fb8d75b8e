import Satisfiability.Proofs.Context.Answers
import Satisfiability.Proofs.Coordinator.Mirroring

/-!
# Searches modulo equality

Between the rounds of a search nothing waits in the context, and the theory mirrors it (`Paired`).
Each round keeps this and raises the rank of the trail, or ends the search (`round_ends`), so there
are no more rounds than the budget allows (`rounds_ends`). A search ends with values only once every
atom has one and the theory finds no contradiction (`Settled`), and then the values satisfy the
clauses and are the truth values of the atoms in a structure (`Settled.truth_iff`). It may end in a
fault, but within a round only the analysis of a conflict can use its budget up, and only if some
literal of the trail is not justified by its reason (`Excused`). If every atom of the problem is one
of the theory, then in each round what the theory holds when it speaks is the trail
(`holds_trail_exactly`).
-/

namespace Satisfiability.Coordinator

open Search Step Trail
open Equality (Solver)
open Satisfiability.FirstOrder (Formula)

variable {ρ : Type} {c c' : Coordinator ρ} {start ctx : Context ρ} {literal : Literal} {atom : Atom}
  {atoms : List (Atom × Formula)} {theory : Solver} {bound : Nat}

/-- The atoms of the theory are atoms of the context, which extends another, and nothing waits. -/
structure Paired (start : Context ρ) (atoms : List (Atom × Formula)) (c : Coordinator ρ) : Prop where
  extension : start.Extends c.context
  waiting : c.context.Waiting []
  mirrors : c.Mirrors
  knows : c.theory.Over atoms
  bounded : ∀ pair ∈ atoms, pair.1 < start.atoms.count

structure Passed (start : Context ρ) (atoms : List (Atom × Formula)) (consistent : Bool)
    (c : Coordinator ρ) : Prop where
  paired : consistent = true → c.Paired start atoms
  refuted : consistent = false → c.context.state = .unsatisfiable

/-- The search has come to an end with values. -/
structure Settled (start : Context ρ) (atoms : List (Atom × Formula)) (c : Coordinator ρ) : Prop
    extends Paired start atoms c where
  synced : c.synced = c.context.trail.marked.length
  total : c.context.Total
  consistent : ∀ literal, c.theory.propagate ≠ .conflict literal

def Rises (bound : Nat) (result : Option Bool) (c : Coordinator ρ) : Prop :=
  result = some true → c.context.left < bound

/-- A budget is used up only where some literal is not justified. -/
def Excused (fault : Fault) (c : Coordinator ρ) : Prop :=
  fault = .outOfFuel → ¬ c.context.Justified

/-! ## Operations on both -/

theorem ends_onContext {α : Type} {operation : Step (Context ρ) α}
    {post : α → Coordinator ρ → Prop} {fail : Fault → Coordinator ρ → Prop} :
    Ends (onContext operation) c post fail ↔
      Ends operation c.context (fun a ctx => post a { c with context := ctx })
        fun fault ctx => fail fault { c with context := ctx } := by
  unfold Ends
  rw [run_onContext]
  rcases operation.run.run c.context with ⟨result, ctx⟩
  cases result <;> rfl

theorem ends_orTheoryFault {α : Type} {result : Except TheoryFault α}
    {post : α → Coordinator ρ → Prop} (h : ∀ a, result = .ok a → post a c) :
    Ends (orTheoryFault result) c post Excused := by
  cases result with
  | ok a => exact h a rfl
  | error cause =>
    intro hfuel
    cases hfuel

theorem followBackjump_ends (level : Nat) :
    Ends (followBackjump level) c (fun _ c' => c'.context = c.context) Excused := by
  unfold followBackjump
  rw [ends_bind, ends_get, ends_bind]
  exact ends_orTheoryFault fun _ _ => rfl

/-- A context that stays on its level only has new literals for the theory to mirror. -/
theorem Mirrors.of_unmoved (h : c.Mirrors) (hadvanced : c.context.Advanced ctx)
    (hlevel : ctx.trail.level = c.context.trail.level) : Mirrors { c with context := ctx } := by
  obtain ⟨news, hmarked, _⟩ := hadvanced.marked
  rw [hlevel, upTo_eq_self fun _ => level_le] at hmarked
  refine h.extend hadvanced.extension.count (Nat.le_of_eq hlevel.symm) hmarked fun mark hmark => ?_
  obtain ⟨_, _, rfl⟩ := List.mem_map.1 hmark
  exact Nat.le_refl _

theorem following_ends {operation : Step (Context ρ) Context.Learning} (hmirrors : c.Mirrors)
    (hextends : start.Extends c.context) (hover : c.theory.Over atoms)
    (hbounded : ∀ pair ∈ atoms, pair.1 < start.atoms.count)
    (hoperation : Ends operation c.context
      (fun learning ctx => c.context.Progressed learning ctx ∧
        (learning.consistent = true → ctx.left < bound))
      fun fault ctx => fault = .outOfFuel → ¬ ctx.Justified) :
    Ends (following operation) c
      (fun consistent c' => c'.Passed start atoms consistent ∧ Rises bound (some consistent) c')
      Excused := by
  unfold following
  rw [ends_bind, ends_onContext]
  refine ends_mono hoperation ?_ fun _ _ => id
  rintro ⟨consistent, jumps⟩ ctx ⟨hprogressed, hleft⟩
  dsimp only
  cases consistent with
  | false =>
    have hstate := hprogressed.refuted rfl
    split
    · exact ⟨⟨by simp, fun _ => hstate⟩, by simp [Rises]⟩
    · rw [ends_bind]
      refine ends_mono (followBackjump_ends _) ?_ fun _ _ => id
      intro _ c' hcontext
      exact ⟨⟨by simp, fun _ => by rw [hcontext]; exact hstate⟩, by simp [Rises]⟩
  | true =>
    have hadvanced := hprogressed.advanced rfl
    have hpassed : ∀ c' : Coordinator ρ, c'.Mirrors → c'.context = ctx →
        c.theory.SameAtoms c'.theory → c'.Passed start atoms true ∧ Rises bound (some true) c' := by
      intro c' hmirrors' hcontext hatoms
      refine ⟨⟨fun _ => ⟨?_, ?_, hmirrors', hover.sameAtoms hatoms, hbounded⟩, by simp⟩, fun _ => ?_⟩
      · rw [hcontext]
        exact hextends.trans hadvanced.extension
      · rw [hcontext]
        exact hprogressed.waiting rfl
      · rw [hcontext]
        exact hleft rfl
    -- without a jump the context stayed on its level
    have hjumps := hprogressed.jumps rfl
    split at hjumps
    · rename_i hlevel
      dsimp only at hjumps
      rw [hjumps]
      exact hpassed _ (hmirrors.of_unmoved hadvanced hlevel) rfl (.refl _)
    · dsimp only at hjumps
      rw [hjumps]
      dsimp only
      rw [ends_bind]
      refine ends_mono (ends_and (followBackjump_spec hmirrors hadvanced) (followBackjump_ends _)) ?_
        fun _ _ => And.right
      rintro _ c' ⟨⟨hmirrors', hcontext, hatoms⟩, -⟩
      exact hpassed c' hmirrors' hcontext hatoms

/-! ## Explanations -/

theorem Mirrors.of_trail (h : c.Mirrors) (hcount : ctx.atoms.count = c.context.atoms.count)
    (htrail : ctx.trail = c.context.trail) : Mirrors { c with context := ctx } := by
  have hmarked : ctx.trail.marked = c.context.trail.marked ++ [] := by rw [htrail, List.append_nil]
  exact h.extend hcount (htrail ▸ Nat.le_refl _) hmarked (List.forall_mem_nil _)

theorem Paired.similar (h : c.Paired start atoms) (hsimilar : c.context.Similar ctx) :
    Paired start atoms { c with context := ctx } :=
  ⟨h.extension.trans hsimilar.extends, hsimilar.waiting h.waiting,
    h.mirrors.of_trail hsimilar.placements.count hsimilar.trail, h.knows, h.bounded⟩

/-- An explanation is a clause about atoms of the context, with the atom explained in it. -/
theorem explanation_ends (h : c.Paired start atoms) (atom : Atom) :
    Ends (explanation atom) c (fun clause c' => c'.Paired start atoms ∧
      c.context.Similar c'.context ∧ ⟨atom, true⟩ ∈ clause ∧ c'.context.Proper clause) Excused := by
  simp only [explanation, countLemma, ends_bind, ends_get]
  refine ends_orTheoryFault fun clause hexplain => ?_
  obtain ⟨hmem, hnodup, hknown⟩ := h.mirrors.coherent.exact.explain hexplain
  rw [ends_modify]
  have hsimilar : c.context.Similar { c.context with
      counters := { c.context.counters with lemmas := c.context.counters.lemmas + 1 } } :=
    ⟨rfl, rfl, rfl, rfl, rfl, rfl, h.waiting.intact.agrees.coherent, .refl _⟩
  refine ⟨h.similar hsimilar, hsimilar, hmem, hnodup, fun literal hliteral => ?_⟩
  obtain ⟨sides, hsides⟩ := hknown literal hliteral
  obtain ⟨formula, hformula, _⟩ := h.knows.known literal.atom sides hsides
  have hlt := h.bounded _ hformula
  rwa [← h.extension.count] at hlt

theorem learnFrom_ends (h : c.Paired start atoms) (atom : Atom) :
    Ends (learnFrom atom) c (fun consistent c' => c'.Passed start atoms consistent ∧
      Rises c.context.left (some consistent) c') Excused := by
  unfold learnFrom
  rw [ends_bind]
  refine ends_mono (explanation_ends h atom) ?_ fun _ _ => id
  rintro clause c₁ ⟨h₁, hsimilar, -⟩
  rw [← hsimilar.left]
  refine following_ends h₁.mirrors h₁.extension h₁.knows h₁.bounded
    (ends_mono (Context.resolveConflict_ends h₁.waiting clause) ?_ ?_)
  · -- the search goes on from a lower level, where a literal was put
    intro learning ctx hlowered
    refine ⟨hlowered.toProgressed, fun hconsistent => ?_⟩
    exact (hlowered.advanced hconsistent).left_lt h₁.waiting.intact (hlowered.waiting hconsistent)
      (hlowered.lower hconsistent)
  · rintro fault ctx (rfl | hstuck | hexhausted) hfuel
    · cases hfuel
    · exact hstuck.after
    · exact absurd hfuel hexhausted.ne_outOfFuel

theorem propagate_ends (hwaiting : c.context.Waiting [literal]) (hmirrors : c.Mirrors)
    (hextends : start.Extends c.context) (hover : c.theory.Over atoms)
    (hbounded : ∀ pair ∈ atoms, pair.1 < start.atoms.count) (hbound : c.context.left < bound) :
    Ends (propagate literal) c (fun consistent c' => c'.Passed start atoms consistent ∧
      Rises bound (some consistent) c') Excused := by
  refine following_ends hmirrors hextends hover hbounded ?_
  refine ends_mono (Context.propagateLearning_ends c.context.trail.level [] hwaiting
    (Nat.le_refl _) (by simp)) ?_ fun _ _ hfails hfuel =>
      hfails.elim (·.after) fun hexhausted => absurd hfuel hexhausted.ne_outOfFuel
  rintro ⟨consistent, jumps⟩ ctx houtcome
  refine ⟨houtcome.progressed (.refl _), ?_⟩
  rintro rfl
  obtain ⟨hcontinued, hpending, _⟩ := houtcome
  exact Nat.lt_of_le_of_lt (hcontinued.left_le hwaiting.intact hpending) hbound

/-! ## What the theory says -/

theorem open_of_unvalued {clause : Clause} (hsimilar : start.Similar ctx) (hproper : ctx.Proper clause)
    (hmem : literal ∈ clause) (hnone : start.valuation literal.atom = none) : ctx.Open literal := by
  refine hsimilar.open_iff.2 ⟨?_, AtomTable.valuation_eq_none.1 hnone⟩
  have hlt := hproper.atoms literal hmem
  rwa [hsimilar.placements.count] at hlt

structure Updated (start : Context ρ) (atoms : List (Atom × Formula)) (c : Coordinator ρ)
    (literal : Literal) (update : Update) (c' : Coordinator ρ) : Prop where
  extension : start.Extends c'.context
  mirrors : c'.Mirrors
  knows : c'.theory.Over atoms
  same : update ≠ .set → c' = c
  waiting : update = .set → c'.context.Waiting [literal]

theorem update_ends (h : c.Paired start atoms) (hpositive : literal.positive = true) :
    Ends (update literal) c (fun update c' => c.Updated start atoms literal update c' ∧
      (update = .set → c'.context.left < c.context.left)) Excused := by
  unfold update
  rw [ends_bind, ends_get]
  split
  · refine ⟨⟨h.extension, h.mirrors, h.knows, fun _ => rfl, fun hset => ?_⟩, fun hset => ?_⟩
    all_goals
      split at hset
      · exact absurd hset (by simp)
      · exact absurd hset (by simp)
  · rename_i hnone
    rw [ends_bind]
    refine ends_mono (explanation_ends h literal.atom) ?_ fun _ _ => id
    rintro clause c₁ ⟨h₁, hsimilar, hmem, hproper⟩
    have hmem' : literal ∈ clause := by
      rw [← hpositive] at hmem
      exact hmem
    -- the atom has no value, so the explanation can force its literal
    have hopen := open_of_unvalued hsimilar hproper hmem' hnone
    rw [ends_bind, ends_onContext]
    refine ends_mono (Context.record_reason_spec h₁.waiting hproper hmem' hopen) ?_
      fun _ _ hrefused hfuel => absurd hfuel hrefused.ne_outOfFuel
    intro _ ctx hlearnt
    have hmarked : ctx.trail.marked =
        c₁.context.trail.marked ++ [(literal, c₁.context.trail.level)] := by
      rw [hlearnt.marked, upTo_eq_self fun _ => level_le]
    rw [ends_pure]
    refine ⟨⟨h₁.extension.trans hlearnt.extension,
      h₁.mirrors.extend hlearnt.extension.count (Nat.le_of_eq hlearnt.level.symm) hmarked
        fun mark hmark => ?_, h₁.knows, fun hne => absurd rfl hne, fun _ => hlearnt.waiting⟩,
      fun _ => ?_⟩
    · exact List.mem_singleton.1 hmark ▸ Nat.le_refl _
    · rw [← hsimilar.left]
      exact Context.left_lt_of_concat hlearnt.waiting hlearnt.extension hmarked

structure Heard (start : Context ρ) (atoms : List (Atom × Formula)) (c : Coordinator ρ)
    (result : Option Bool) (c' : Coordinator ρ) : Prop where
  silent : result = none → c' = c
  passed : ∀ consistent, result = some consistent → c'.Passed start atoms consistent

theorem heard_of_passed {consistent : Bool} (h : c'.Passed start atoms consistent) :
    c.Heard start atoms (some consistent) c' :=
  ⟨by simp, fun _ heq => Option.some.inj heq ▸ h⟩

theorem updateAll_ends (literals : List Literal) (h : c.Paired start atoms)
    (hpositive : ∀ literal ∈ literals, literal.positive = true) :
    Ends (updateAll literals) c (fun result c' => c.Heard start atoms result c' ∧
      Rises c.context.left result c') Excused := by
  -- an update that changes nothing is passed over
  induction literals with
  | nil => exact ⟨⟨fun _ => rfl, by simp⟩, by simp [Rises]⟩
  | cons literal rest ih =>
    unfold updateAll
    rw [ends_bind]
    refine ends_mono (update_ends h (hpositive literal List.mem_cons_self)) ?_ fun _ _ => id
    rintro update c₁ ⟨hupdated, hset⟩
    cases update with
    | alreadySet =>
      rw [hupdated.same (by simp)]
      exact ih fun other hmem => hpositive other (List.mem_cons_of_mem _ hmem)
    | contradicts =>
      rw [hupdated.same (by simp)]
      dsimp only
      rw [ends_bind]
      exact ends_mono (learnFrom_ends h literal.atom)
        (fun _ _ hpassed => ⟨heard_of_passed hpassed.1, hpassed.2⟩) fun _ _ => id
    | set =>
      dsimp only
      rw [ends_bind]
      exact ends_mono (propagate_ends (hupdated.waiting rfl) hupdated.mirrors hupdated.extension
        hupdated.knows h.bounded (hset rfl))
        (fun _ _ hpassed => ⟨heard_of_passed hpassed.1, hpassed.2⟩) fun _ _ => id

theorem positive_of_entailed {solver : Solver} {literals : List Literal}
    (h : solver.propagate = .entailed literals) : ∀ literal ∈ literals, literal.positive = true := by
  unfold Solver.propagate at h
  dsimp only at h
  split at h
  · exact absurd h (by simp)
  · split at h
    · exact absurd h (by simp)
    · cases h
      intro literal hmem
      obtain ⟨_, _, rfl⟩ := List.mem_map.1 hmem
      rfl

theorem consult_ends (h : c.Paired start atoms) :
    Ends consult c (fun result c' => c.Heard start atoms result c' ∧ Rises c.context.left result c' ∧
      (result = none → ∀ literal, c.theory.propagate ≠ .conflict literal)) Excused := by
  unfold consult
  rw [ends_bind, ends_get]
  split
  · rw [ends_bind]
    exact ends_mono (learnFrom_ends h _)
      (fun _ _ hpassed => ⟨heard_of_passed hpassed.1, hpassed.2, by simp⟩) fun _ _ => id
  · rename_i literals heq
    refine ends_mono (updateAll_ends literals h (positive_of_entailed heq))
      (fun _ _ hheard => ⟨hheard.1, hheard.2, fun _ literal => by rw [heq]; simp⟩) fun _ _ => id
  · rename_i heq
    exact ⟨⟨fun _ => rfl, by simp⟩, by simp [Rises], fun _ literal => by rw [heq]; simp⟩

/-! ## The beginning of a search -/

theorem mirrors_init (hcoherent : theory.Coherent) (hempty : theory.assertions = {}) :
    Mirrors { context := ctx, theory } := by
  refine ⟨⟨hcoherent, List.Pairwise.nil, by simp⟩, Nat.zero_le _, ?_, ⟨by simp, ?_⟩, fun _ => ?_,
    ⟨Nat.zero_le _, fun _ _ => Nat.zero_le _⟩, Nat.zero_le _, fun _ _ => Nat.zero_le _⟩
  · exact fun mark hmark => absurd hmark (by simp [told])
  · exact fun mark hmark => absurd hmark (by simp [told])
  · have hmarked : theory.assertions.marked = [] := by
      rw [hempty]
      rfl
    have hlevel : theory.level = 0 := by
      rw [Solver.level, hempty]
      rfl
    exact ⟨hmarked, fun level k hgoes => absurd hgoes (by simp), fun _ => hlevel⟩

theorem propagateGround_refuted (literals : List Literal) :
    Ensures (Context.propagateGround literals) ctx
      (fun consistent ctx' => consistent = false → ctx'.state = .unsatisfiable) anyFault := by
  induction literals generalizing ctx with
  | nil => exact fun hfalse => absurd hfalse (by simp)
  | cons literal rest ih =>
    unfold Context.propagateGround
    rw [ensures_bind]
    refine ensures_mono (ensures_run (Context.propagate literal) ctx) ?_ fun _ => id
    rintro (_ | key) ctx' -
    · exact ih
    · exact fun _ => rfl

/-! ## Rounds -/

theorem assertAt_ends (level : Nat) (literal : Literal) :
    Ends (assertAt level literal) c (fun _ _ => True) Excused := by
  unfold assertAt
  simp only [ends_bind, ends_modify, ends_get]
  exact ends_orTheoryFault fun _ _ => trivial

theorem syncLiteral_ends (literal : Literal) :
    Ends (syncLiteral literal) c (fun _ _ => True) Excused := by
  unfold syncLiteral
  simp only [ends_bind, ends_get]
  split
  · rw [ends_bind]
    exact ends_mono (assertAt_ends _ literal) (fun _ _ _ => trivial) fun _ _ => id
  · exact trivial

theorem sync_ends : Ends sync c (fun _ _ => True) Excused := by
  unfold sync
  rw [ends_bind, ends_get]
  generalize c.context.trail.literals.drop c.synced = literals
  induction literals generalizing c with
  | nil => exact trivial
  | cons literal rest ih =>
    exact ends_bind.2 (ends_mono (syncLiteral_ends literal) (fun _ _ _ => ih) fun _ _ => id)

theorem sync_paired (h : c.Paired start atoms) :
    Ends sync c (fun _ c' => c'.Paired start atoms ∧ c'.context = c.context ∧
      c'.synced = c'.context.trail.marked.length) Excused := by
  have hintact := h.waiting.intact
  refine ends_mono (ends_and (sync_spec h.mirrors hintact.agrees hintact.filled) sync_ends) ?_
    fun _ _ => And.right
  rintro _ c' ⟨⟨hmirrors, hcontext, hsynced, hatoms⟩, -⟩
  refine ⟨⟨?_, ?_, hmirrors, h.knows.sameAtoms hatoms, h.bounded⟩, hcontext, ?_⟩
  · rw [hcontext]
    exact h.extension
  · rw [hcontext]
    exact h.waiting
  · rw [hsynced, hcontext]

theorem Paired.covered (h : c.Paired start atoms)
    (hall : ∀ atom < start.atoms.count, ∃ formula, (atom, formula) ∈ atoms ∧ formula.isAtomic = true) :
    c.Covered := by
  intro atom hlt
  have hcount : c.context.atoms.count = start.atoms.count := h.extension.count
  obtain ⟨formula, hmem, hatomic⟩ := hall atom (hcount ▸ hlt)
  obtain ⟨sides, hsides⟩ := h.knows.atomic atom formula hmem hatomic
  rw [Solver.hasAtom, hsides, Option.isSome_some]

structure Rounded (start : Context ρ) (atoms : List (Atom × Formula)) (answer : Option Report)
    (c : Coordinator ρ) : Prop where
  paired : answer = none → c.Paired start atoms
  settled : answer = some .satisfiable → c.Settled start atoms

theorem Passed.rounded {consistent : Bool} (h : c.Passed start atoms consistent)
    (hrises : Rises bound (some consistent) c) :
    Ends (if some consistent = some true then pure none
      else do return some (← get).context.report) c
      (fun answer c' => c'.Rounded start atoms answer ∧ (answer = none → c'.context.left < bound))
      Excused := by
  cases consistent with
  | true => exact ⟨⟨fun _ => h.paired rfl, by simp⟩, fun _ => hrises rfl⟩
  | false =>
    refine ⟨⟨by simp, fun heq => ?_⟩, by simp⟩
    rw [Context.report, h.refuted rfl] at heq
    exact absurd heq (by simp [SearchState.report])

variable [RandomSource ρ] [LawfulRandomSource ρ]

theorem decide_ends (h : c.Paired start atoms)
    (hsynced : c.synced = c.context.trail.marked.length)
    (hconsistent : ∀ literal, c.theory.propagate ≠ .conflict literal) :
    Ends decide c (fun result c' => (result = none → c'.Settled start atoms) ∧
      ∀ consistent, result = some consistent → c'.Passed start atoms consistent ∧
        Rises c.context.left (some consistent) c') Excused := by
  unfold decide
  rw [ends_bind, ends_onContext]
  refine ends_of_ensures (Context.decision_spec h.waiting.intact.agrees.coherent) ?_
  rintro (_ | literal) ctx ⟨hsimilar, hresult⟩
  · -- every atom has a value, and the theory has been told of all of them
    have hpaired := h.similar hsimilar
    simp only [ends_bind, ends_onContext, Context.setState, ends_modify, ends_pure]
    refine ⟨fun _ => ⟨⟨?_, ?_, ?_, h.knows, h.bounded⟩, ?_, ?_, hconsistent⟩, by simp⟩
    · exact hpaired.extension.trans (Context.extends_withState _ _)
    · exact hpaired.waiting.withState _
    · exact h.mirrors.of_trail hsimilar.placements.count hsimilar.trail
    · rw [hsynced, hsimilar.trail]
    · exact hsimilar.total_iff.2 hresult
  · have hpaired := h.similar hsimilar
    have hrecord := Context.record_decision_spec hpaired.waiting (hsimilar.open_iff.2 hresult)
    dsimp only
    rw [ends_bind, ends_onContext]
    refine ends_of_ensures hrecord ?_
    intro _ ctx' hdecided
    rw [ends_bind]
    have hmirrors : Mirrors { c with context := ctx' } := by
      refine hpaired.mirrors.extend hdecided.extension.count ?_ hdecided.marked fun mark hmark => ?_
      · rw [hdecided.level]
        exact Nat.le_succ _
      · exact List.mem_singleton.1 hmark ▸ Nat.le_succ _
    have hleft := hdecided.left_lt
    rw [hsimilar.left] at hleft
    refine ends_mono (propagate_ends hdecided.waiting hmirrors
      (hpaired.extension.trans hdecided.extension) h.knows h.bounded hleft) ?_ fun _ _ => id
    intro consistent c' hpassed
    exact ⟨by simp, fun _ heq => Option.some.inj heq ▸ hpassed⟩

/-- A round ends the search with values, or both go on with a rank that has risen, unless it ends in
another way. -/
theorem round_ends (h : c.Paired start atoms) :
    Ends round c (fun answer c' => c'.Rounded start atoms answer ∧
      (answer = none → c'.context.left < c.context.left)) Excused := by
  have hcounted := Context.similar_counted h.waiting.intact.agrees.coherent
  unfold round countRound
  rw [ends_bind, ends_onContext, ends_modify, ends_bind, ends_get]
  split
  · exact ⟨⟨by simp, by simp⟩, by simp⟩
  · rw [ends_bind]
    refine ends_mono (sync_paired (h.similar hcounted)) ?_ fun _ _ => id
    rintro _ c₁ ⟨h₁, hcontext, hsynced⟩
    have hleft : c₁.context.left = c.context.left := by
      rw [hcontext]
      exact hcounted.left
    rw [ends_bind, ← hleft]
    refine ends_mono (consult_ends h₁) ?_ fun _ _ => id
    rintro (_ | consistent) c₂ ⟨hheard, hrises, hconsistent⟩
    · -- the theory has nothing to say, and a decision is made
      rw [hheard.silent rfl]
      dsimp only
      rw [ends_bind]
      refine ends_mono (decide_ends h₁ hsynced (hconsistent rfl)) ?_ fun _ _ => id
      rintro (_ | consistent) c₃ ⟨hsettled, hpassed⟩
      · exact ⟨⟨by simp, fun _ => hsettled rfl⟩, by simp⟩
      · exact (hpassed _ rfl).1.rounded (hpassed _ rfl).2
    · exact (hheard.passed _ rfl).rounded hrises

/-- Rounds do not use up a budget that bounds how often the rank can still rise. -/
theorem rounds_ends (budget : Nat) (h : c.Paired start atoms) (hbudget : c.context.left ≤ budget) :
    Ends (rounds budget) c (fun report c' => report = .satisfiable → c'.Settled start atoms)
      Excused := by
  induction budget generalizing c with
  | zero =>
    have := h.waiting.left_pos
    omega
  | succ budget ih =>
    unfold rounds
    rw [ends_bind]
    refine ends_mono (round_ends h) ?_ fun _ _ => id
    rintro (_ | report) c' ⟨hrounded, hleft⟩
    · have hlt := hleft rfl
      exact ih (hrounded.paired rfl) (by omega)
    · exact fun hreport => hrounded.settled (congrArg some hreport)

/-! ## Whole searches -/

/-- The ground is propagated as in a search without a theory, and what comes of it starts the
rounds. -/
theorem start_spec {clauses : List Clause} (hbuilt : start.Built clauses)
    (hbounded : ∀ pair ∈ atoms, pair.1 < start.atoms.count) (hstate : start.state ≠ .unsatisfiable) :
    Ensures Context.start start (fun consistent ctx =>
      (consistent = true → Paired start atoms { context := ctx, theory := Solver.ofAtoms atoms }) ∧
        (consistent = false → ctx.state = .unsatisfiable)) never := by
  obtain ⟨hcoherent, hover, _, _⟩ := Solver.ofAtoms_spec atoms
  have hunsettled : ¬ (start.state = .satisfiable ∨ start.state = .unsatisfiable) := by
    rintro (heq | heq)
    · rcases hbuilt.state with heq' | heq'
      all_goals
        rw [heq] at heq'
        cases heq'
    · exact hstate heq
  have hstanding := (hbuilt.standing.move (.started hunsettled)).1
  simp only [Context.start, ensures_bind, ensures_get, if_neg hstate, Context.setState, ensures_modify]
  refine ensures_mono (ensures_and (Context.propagateGround_spec _ hstanding)
    (propagateGround_refuted _)) ?_ fun _ => And.left
  rintro consistent ctx ⟨hground, hrefuted⟩
  refine ⟨?_, hrefuted⟩
  rintro rfl
  obtain ⟨hextends, _, hwaiting⟩ := hground rfl
  exact ⟨hextends, hwaiting, mirrors_init hcoherent rfl, hover, hbounded⟩

/-- A search that ends with values has made its way from a problem that was not refuted while it was
built, with the theory of its atoms. It has an answer or a fault of its own, unless a literal is not
justified. -/
theorem solve_ends {clauses : List Clause} (hbuilt : start.Built clauses)
    (hbounded : ∀ pair ∈ atoms, pair.1 < start.atoms.count) :
    Ends solve { context := start, theory := Solver.ofAtoms atoms }
      (fun report c' => report = .satisfiable →
        start.state ≠ .unsatisfiable ∧ c'.Settled start atoms) Excused := by
  unfold solve
  rw [ends_bind, ends_get]
  dsimp only
  split
  · rename_i hstate
    have hreport : start.report ≠ .satisfiable := by
      rcases hbuilt.state with heq | heq <;> simp [Context.report, heq, SearchState.report]
    exact fun hsatisfiable => absurd hsatisfiable hreport
  · rename_i hstate
    have hunsatisfiable : start.state ≠ .unsatisfiable := fun heq => hstate (Or.inr heq)
    rw [ends_bind, ends_onContext]
    refine ends_of_ensures (start_spec hbuilt hbounded hunsatisfiable) ?_
    rintro consistent ctx ⟨hpaired, hrefuted⟩
    cases consistent with
    | true =>
      refine ends_mono (rounds_ends _ (hpaired rfl) ?_)
        (fun _ _ hsettled hreport => ⟨hunsatisfiable, hsettled hreport⟩) fun _ _ => id
      -- the budget of the rounds is that of the atoms, of which there are as many as before
      have hcount : ctx.atoms.count = start.atoms.count := (hpaired rfl).extension.count
      rw [← hcount]
      exact Context.left_le_roundBudget ctx
    | false =>
      have hreport : ctx.report ≠ .satisfiable := by
        simp [Context.report, hrefuted rfl, SearchState.report]
      exact fun hsatisfiable => absurd hsatisfiable hreport

theorem solve_spec {clauses : List Clause} (hbuilt : start.Built clauses)
    (hbounded : ∀ pair ∈ atoms, pair.1 < start.atoms.count) :
    Ensures solve { context := start, theory := Solver.ofAtoms atoms }
      (fun report c' => report = .satisfiable →
        start.state ≠ .unsatisfiable ∧ c'.Settled start atoms) anyFault :=
  ensures_of_ends (solve_ends hbuilt hbounded) fun _ _ _ => trivial

/-! ## Theories of all atoms -/

/-- If the theory is one of all atoms of a problem, then in each round of a search it is told of the
trail without a fault, and what it holds when it speaks is the trail: the same literals in the same
order, each on the same level. -/
theorem holds_trail_exactly {clauses : List Clause} (hbuilt : start.Built clauses)
    (hbounded : ∀ pair ∈ atoms, pair.1 < start.atoms.count)
    (hall : ∀ atom < start.atoms.count, ∃ formula, (atom, formula) ∈ atoms ∧ formula.isAtomic = true)
    (hstart : Context.start.run.run start = (.ok true, ctx))
    (hrounds : Relation.ReflTransGen (fun c c' => round.run.run c = (.ok none, c'))
      { context := ctx, theory := Solver.ofAtoms atoms } c) :
    Ensures (do countRound; sync) c (fun _ c' => c'.context.trail = c.context.trail ∧
      c'.theory.assertions.marked = c'.context.trail.marked) never := by
  have hunsatisfiable : start.state ≠ .unsatisfiable := by
    intro heq
    have hstops : Ensures Context.start start (fun consistent _ => consistent = false) never := by
      simp only [Context.start, ensures_bind, ensures_get, if_pos heq, ensures_pure]
    exact absurd (ensures_ok hstops hstart) (by simp)
  have hpaired : c.Paired start atoms := by
    induction hrounds with
    | refl => exact (ensures_ok (start_spec hbuilt hbounded hunsatisfiable) hstart).1 rfl
    | tail _ hround ih => exact (ends_ok (round_ends ih) hround).1.paired rfl
  have hcounted := Context.similar_counted hpaired.waiting.intact.agrees.coherent
  have hcounted' := hpaired.similar hcounted
  have hintact := hcounted'.waiting.intact
  unfold countRound
  rw [ensures_bind, ensures_onContext, ensures_modify]
  refine ensures_mono (sync_spec hcounted'.mirrors hintact.agrees hintact.filled) ?_
    fun _ hnot => hnot (hcounted'.covered hall)
  rintro _ c' ⟨hmirrors, hcontext, hsynced, hatoms⟩
  have hcovered := (hcounted'.covered hall).sameAtoms hcontext hatoms
  exact ⟨by rw [hcontext], hmirrors.asserted_eq hcovered (by rw [hsynced, hcontext])⟩

/-! ## The values found -/

omit [RandomSource ρ] [LawfulRandomSource ρ]

theorem Settled.hasValue (h : c.Settled start atoms) (hlt : atom < start.atoms.count) :
    ∃ value, c.context.valuation atom = some value := by
  rw [← h.extension.count] at hlt
  exact Option.ne_none_iff_exists'.1 fun hnone =>
    h.total atom hlt (AtomTable.valuation_eq_none.1 hnone)

theorem Settled.satisfies (h : c.Settled start atoms) {clause : Clause}
    (hatoms : ∀ literal ∈ clause, literal.atom < start.atoms.count) (hkept : start.Keeps clause) :
    c.context.valuation.satisfies clause = true := by
  refine h.waiting.keeps_satisfied h.total (fun literal hmem => ?_) (h.extension.keeps hkept)
  rw [h.extension.count]
  exact hatoms literal hmem

/-- The values of the equalities and relations are their truth values in one structure. -/
theorem Settled.truth_iff (h : c.Settled start atoms) (hnodup : (atoms.map Prod.fst).Nodup)
    (quantified : Formula → Prop) {formula : Formula} (hmem : (atom, formula) ∈ atoms)
    (hatomic : formula.isAtomic = true) :
    c.theory.classes.interpretation.truth quantified formula ↔
      c.context.valuation atom = some true := by
  obtain ⟨value, hvalue⟩ := h.hasValue (h.bounded _ hmem)
  obtain ⟨sides, hsides⟩ := h.knows.atomic atom formula hmem hatomic
  have hatom : c.theory.hasAtom atom = true := by simp [Solver.hasAtom, hsides]
  have htheory := h.mirrors.value?_eq h.waiting.intact.agrees h.synced hatom hvalue
  rw [h.mirrors.coherent.exact.truth_iff h.knows hnodup h.consistent quantified hmem hatomic htheory,
    hvalue, Option.some.injEq]

end Satisfiability.Coordinator
