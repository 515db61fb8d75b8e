import Mathlib.Data.List.Chain
import Mathlib.Tactic.ByContra
import Satisfiability.Proofs.Context.Building

/-!
# The answers of a search

Whatever problem is built from parts, and whatever the configuration and the source of randomness: a
problem that is said to be unsatisfiable has no model, and at each point of a search what was added
to the problem follows from it; the values found satisfy every clause of the problem and every
clause added; a search without a time limit ends with one of these two answers. The only faults are
that there are more atoms or clauses than numbers for them (`Part.Fits`, `StorageExhausted`).
-/

namespace Satisfiability.Context

open Search Step Trail

variable {ρ : Type} {ctx ctx' start : Context ρ} {M : (Atom → Bool) → Prop} {clause : Clause}
  {clauses : List Clause} {literal : Literal} {key : ClauseKey}

/-! ## Clauses and values -/

/-- Where nothing is pending and every atom has a value, each stored clause has a true literal: a
false watch would say that another literal is true, or that another one is not false. -/
theorem Waiting.stored_holds (h : ctx.Waiting []) (htotal : ctx.Total) {watched : WatchedClause}
    (hget : ctx.clauses.get? key = some watched) :
    ∃ literal ∈ watched.literals, ctx.valuation.status literal = .holds := by
  have hagrees := h.intact.agrees
  by_contra hnone
  push Not at hnone
  have hfalse : ∀ literal ∈ watched.literals, ∃ level, (-literal, level) ∈ ctx.trail.marked := by
    intro literal hmem
    rw [← hagrees.fails_iff]
    have hvalue : ctx.valuation literal.atom ≠ none := fun hnone =>
      htotal literal.atom ((hagrees.stored key watched hget).2 literal hmem)
        (AtomTable.valuation_eq_none.1 hnone)
    cases hstatus : ctx.valuation.status literal with
    | unvalued => exact absurd (Valuation.status_eq_unvalued.1 hstatus) hvalue
    | holds => exact absurd hstatus (hnone literal hmem)
    | fails => rfl
  obtain ⟨i, hfirst⟩ := hfalse watched.first List.mem_cons_self
  obtain ⟨j, hsecond⟩ := hfalse watched.second (List.mem_cons_of_mem _ List.mem_cons_self)
  rcases (h.guarded key watched hget).1 i hfirst List.not_mem_nil with ⟨_, _, htrue⟩ | ⟨_, hopen, _⟩
  · exact hagrees.not_both htrue hsecond
  · exact hopen.elim List.not_mem_nil fun hnot => hnot j hsecond

theorem satisfies_iff {valuation : Valuation} :
    valuation.satisfies clause = true ↔ ∃ literal ∈ clause, valuation.status literal = .holds := by
  simp [Valuation.satisfies]

theorem Waiting.keeps_satisfied (h : ctx.Waiting []) (htotal : ctx.Total)
    (hatoms : ∀ literal ∈ clause, literal.atom < ctx.atoms.count) (hkeeps : ctx.Keeps clause) :
    ctx.valuation.satisfies clause = true := by
  have hagrees := h.intact.agrees
  rw [satisfies_iff]
  rcases hkeeps with ⟨literal, hpos, hneg⟩ | ⟨literal, hmem, hground⟩ |
    ⟨source, index, clause', ⟨watched, hget, rfl⟩, hsubset⟩
  · -- one of a literal and its negation is true
    rcases hagrees.cases literal with htrue | hfalse | hopen
    · exact ⟨literal, hpos, hagrees.holds_iff.2 htrue⟩
    · exact ⟨-literal, hneg, hagrees.holds_iff.2 hfalse⟩
    · exact absurd (hagrees.placement_eq_none.2 hopen) (htotal _ (hatoms literal hpos))
  · exact ⟨literal, hmem, hagrees.holds_iff.2 ⟨0, hground⟩⟩
  · obtain ⟨literal, hmem, hholds⟩ := h.stored_holds htotal hget
    exact ⟨literal, hsubset hmem, hholds⟩

/-- The model that gives the atoms their values, and `other` to those without one. -/
def completion (ctx : Context ρ) (other : Bool) (atom : Atom) : Bool :=
  (ctx.valuation atom).getD other

theorem satisfied_completion (h : ctx.valuation.satisfies clause = true) (other : Bool) :
    Satisfied (ctx.completion other) clause := by
  obtain ⟨literal, hmem, hholds⟩ := satisfies_iff.1 h
  refine ⟨literal, hmem, ?_⟩
  rw [completion, Valuation.status_eq_holds.1 hholds]
  rfl

/-- A clause that holds in all models is satisfied by values that satisfy the problem. A single
literal has a value, since it is true whatever value the atoms beyond the table are given. -/
theorem Waiting.entailed_satisfied (h : ctx.Waiting []) (htotal : ctx.Total)
    (hsound : ctx.Sound (Models clauses))
    (hclauses : ∀ clause ∈ clauses, ctx.valuation.satisfies clause = true)
    (hhas : ctx.clauses.Has key clause) : ctx.valuation.satisfies clause = true := by
  have hmodels : ∀ other, Models clauses (ctx.completion other) := fun other clause hmem =>
    satisfied_completion (hclauses clause hmem) other
  cases key with
  | stored source index =>
    obtain ⟨watched, hget, rfl⟩ := hhas
    exact satisfies_iff.2 (h.stored_holds htotal hget)
  | unit source literal =>
    have hvalue : ∀ other, ctx.completion other literal.atom = literal.positive := by
      intro other
      obtain ⟨only, honly, hvalue⟩ := hsound.entailed _ _ hhas _ (hmodels other)
      rw [hhas.1] at honly
      rwa [List.mem_singleton.1 honly] at hvalue
    obtain ⟨rfl, _⟩ := hhas
    refine satisfies_iff.2 ⟨literal, List.mem_cons_self, Valuation.status_eq_holds.2 ?_⟩
    -- an atom left open could be completed either way, and only one of them suits the unit
    have hpos := hvalue true
    have hneg := hvalue false
    unfold completion at hpos hneg
    cases hsome : ctx.valuation literal.atom with
    | none =>
      rw [hsome] at hpos hneg
      exact absurd (hpos.trans hneg.symm) (by simp)
    | some value =>
      rw [hsome] at hpos
      exact congrArg some hpos

theorem Sound.addition_entailed (h : ctx.Sound M) (hmem : clause ∈ ctx.clauses.additionClauses)
    {model : Atom → Bool} (hmodel : M model) : Satisfied model clause := by
  obtain ⟨key, hhas⟩ := ClauseStore.mem_clauses_iff.1 (List.mem_append_right _ hmem)
  exact h.entailed key clause hhas model hmodel

/-! ## The operations called -/

theorem Built.standing (h : ctx.Built clauses) :
    Standing ctx (Models clauses) (.start, ctx) := by
  refine ⟨.refl ctx, h.sound, h.waiting, h.level, ?_⟩
  rcases h.state with heq | heq
  · simp [heq]
  · simp [heq]

theorem built_parts (config : Config) (random : ρ) {parts : List Part}
    (hparts : Part.Ordered 0 parts) :
    Ends (addParts parts) (empty config random) (fun _ ctx => ctx.Built (Part.clauses parts) ∧
      ctx.config = config ∧ ctx.atoms.count = Part.atomCount parts)
      fun fault ctx => Depleted fault ctx ∧ ¬ Part.Fits parts := by
  have hcount : (empty config random).atoms.count = 0 := rfl
  have hsize : ((empty config random).clauses.shelf .problem).stored.size = 0 := rfl
  refine ends_mono (addParts_spec parts (built_empty config random) hparts) ?_ ?_
  · rintro _ ctx ⟨hbuilt, hconfig, hatoms⟩
    rw [hcount, Nat.zero_add] at hatoms
    exact ⟨hbuilt, hconfig, hatoms⟩
  · rintro fault _ ⟨hfault, hmore⟩
    rw [hcount, hsize] at hmore
    refine ⟨hfault, fun hfits => ?_⟩
    obtain ⟨hatoms, hclauses⟩ := hfits
    omega

theorem exists_of_fits {config : Config} {random : ρ} {parts : List Part} {post : Context ρ → Prop}
    (h : Ends (addParts parts) (empty config random) (fun _ => post)
      fun fault ctx => Depleted fault ctx ∧ ¬ Part.Fits parts) (hfits : Part.Fits parts) :
    ∃ ctx, (addParts parts).run.run (empty config random) = (.ok (), ctx) ∧ post ctx := by
  rcases run_of_ends h with ⟨_, ctx, hrun, hpost⟩ | ⟨_, _, _, _, hnot⟩
  · exact ⟨ctx, hrun, hpost⟩
  · exact absurd hfits hnot

theorem Standing.intact {phase : Phase} (h : Standing start M (phase, ctx))
    (hphase : ∀ report, phase ≠ .finished report) : ctx.Intact := by
  obtain ⟨_, _, horder⟩ := h
  cases phase with
  | start | ground => exact horder.1.intact
  | decide | propagate => exact Waiting.intact horder
  | learn => exact horder.1
  | finished report => exact absurd rfl (hphase report)

variable [RandomSource ρ]

/-- The operations that a phase calls end with a result, except that learning may run out of
numbers. -/
def Returns (ctx : Context ρ) : Phase → Prop
  | .ground (literal :: _) => ∃ result ctx', (propagate literal).run.run ctx = (.ok result, ctx')
  | .decide => ∃ result ctx', decision.run.run ctx.counted = (.ok result, ctx')
  | .propagate literal =>
    (∃ result ctx', (propagate literal).run.run ctx = (.ok result, ctx')) ∧
      Ends (propagateLearning literal []) ctx (fun _ _ => True) (StorageExhausted .addition)
  | .learn key => (∃ analysis, ctx.analyse key = .ok analysis) ∧
      Ends (learn key) ctx (fun _ _ => True) (StorageExhausted .addition)
  | _ => True

variable [LawfulRandomSource ρ]

theorem Standing.returns {phase : Phase} (h : Standing start M (phase, ctx)) :
    ctx.Returns phase := by
  obtain ⟨_, hsound, horder⟩ := h
  cases phase with
  | start | finished => exact trivial
  | ground rest =>
    cases rest with
    | nil => exact trivial
    | cons literal rest =>
      obtain ⟨result, ctx', hrun, _⟩ := run_of_ensures (propagate_spec rest horder.1)
      exact ⟨result, ctx', hrun⟩
  | decide =>
    have hcounted := similar_counted horder.intact.agrees.coherent
    obtain ⟨result, ctx', hrun, _⟩ := run_of_ensures (decision_spec hcounted.coherent)
    exact ⟨result, ctx', hrun⟩
  | propagate literal =>
    obtain ⟨result, ctx', hrun, _⟩ := run_of_ensures (propagate_spec [] horder)
    have hlearning := propagateLearning_ends ctx.trail.level [] horder (Nat.le_refl _) (by simp)
    exact ⟨⟨result, ctx', hrun⟩, ends_mono hlearning (fun _ _ _ => trivial) fun _ _ hfails =>
      (Exhausted.of_fails hsound hfails).toStorageExhausted⟩
  | learn key =>
    obtain ⟨hintact, hconflict⟩ := horder
    refine ⟨?_, ends_mono (learn_ends hintact hconflict) (fun _ _ _ => trivial) fun _ _ hfails =>
      (Exhausted.of_fails hsound hfails).toStorageExhausted⟩
    by_cases hlevel : ctx.trail.level = 0
    · exact ⟨.fundamental, analyse_ground hlevel⟩
    · have hanalyse := analyse_spec hintact hconflict (Nat.pos_of_ne_zero hlevel)
      cases hresult : ctx.analyse key with
      | ok analysis => exact ⟨analysis, rfl⟩
      -- only a literal without a justification stops the analysis above the ground
      | error fault =>
        rw [hresult] at hanalyse
        exact absurd hsound.justified hanalyse

theorem Standing.length_le {point : Phase × Context ρ} (h : Standing start M point)
    (points : List (Phase × Context ρ)) (hchain : List.IsChain Move (point :: points)) :
    points.length ≤ measure point := by
  induction points generalizing point with
  | nil => exact Nat.zero_le _
  | cons next rest ih =>
    rw [List.isChain_cons_cons] at hchain
    obtain ⟨hstanding, hless⟩ := h.move hchain.1
    have := ih hstanding hchain.2
    rw [List.length_cons]
    omega

/-! ## Problems built and solved -/

omit [LawfulRandomSource ρ] in
/-- A search over a problem refuted while it was built ends at once with that answer. -/
theorem Moves.of_refuted {report : Report} (hstate : ctx.state = .unsatisfiable)
    (hmoves : Moves (.start, ctx) (.finished report, ctx')) : report = .unsatisfiable := by
  rcases hmoves.cases_head with heq | ⟨point, hmove, hrest⟩
  · cases heq
  · cases hmove with
    | started hnot => exact absurd (Or.inr hstate) hnot
    | answered =>
      rcases hrest.cases_head with heq | ⟨point, hmove, _⟩
      · cases heq
        rw [Context.report, hstate]
        rfl
      · cases hmove

theorem Built.satisfies_of_moves (h : ctx.Built clauses)
    (hatoms : ∀ clause ∈ clauses, ∀ literal ∈ clause, literal.atom < ctx.atoms.count)
    (hmoves : Moves (.start, ctx) (.finished .satisfiable, ctx')) :
    ∀ clause ∈ clauses, ctx'.valuation.satisfies clause = true := by
  obtain ⟨hextends, _, hwaiting, htotal⟩ := h.standing.moves hmoves
  intro clause hmem
  refine hwaiting.keeps_satisfied htotal (fun literal hliteral => ?_) ?_
  · rw [hextends.count]
    exact hatoms clause hmem literal hliteral
  · refine hextends.keeps (h.kept (fun hstate => ?_) clause hmem)
    exact absurd (Moves.of_refuted hstate hmoves) (by decide)

theorem Built.known_of_moves (h : ctx.Built clauses) (hlimit : ctx.config.timeLimit = none) :
    ¬ Moves (.start, ctx) (.finished .unknown, ctx') := by
  intro hmoves
  obtain ⟨hextends, _, htime⟩ := h.standing.moves hmoves
  rw [InOrder, hextends.config] at htime
  exact htime hlimit

/-- A problem that is said to be unsatisfiable has no model, and at each point of a search every
clause added follows from the clauses of the problem. -/
theorem unsatisfiable_correct (config : Config) (random : ρ) (parts : List Part)
    (hparts : Part.Ordered 0 parts) :
    Ends (addParts parts) (empty config random) (fun _ ctx =>
      (∀ report ctx', solve.run.run ctx = (.ok report, ctx') →
        Moves (.start, ctx) (.finished report, ctx')) ∧
      (∀ ctx', Moves (.start, ctx) (.finished .unsatisfiable, ctx') →
        ∀ model, ¬ Models (Part.clauses parts) model) ∧
      ∀ phase ctx', Moves (.start, ctx) (phase, ctx') →
        ∀ clause ∈ ctx'.clauses.additionClauses,
          ∀ model, Models (Part.clauses parts) model → Satisfied model clause)
      fun fault ctx => Depleted fault ctx ∧ ¬ Part.Fits parts := by
  refine ends_mono (built_parts config random hparts) ?_ fun _ _ => id
  rintro _ ctx ⟨hbuilt, _⟩
  have hstanding := hbuilt.standing
  refine ⟨fun _ _ => moves_of_solve, ?_, ?_⟩
  · intro ctx' hmoves
    obtain ⟨_, hsound, hunsatisfiable⟩ := hstanding.moves hmoves
    exact hsound.refuted hunsatisfiable
  · intro phase ctx' hmoves clause hmem model hmodel
    exact (hstanding.moves hmoves).sound.addition_entailed hmem hmodel

/-- Two atoms, and for each way to give them values a clause against it. -/
def contradiction : List Part :=
  [.atom "p", .atom "q", .clause [⟨0, true⟩, ⟨1, true⟩], .clause [⟨0, true⟩, ⟨1, false⟩],
    .clause [⟨0, false⟩, ⟨1, true⟩], .clause [⟨0, false⟩, ⟨1, false⟩]]

set_option maxRecDepth 100000 in
theorem unsatisfiable_correct_contradiction :
    Part.Ordered 0 contradiction ∧ ∀ model, ¬ Models (Part.clauses contradiction) model := by
  have hordered : Part.Ordered 0 contradiction := by decide
  obtain ⟨ctx, hrun, hsolve, hanswer, _⟩ :=
    exists_of_fits (unsatisfiable_correct {} (⟨0⟩ : SplitMix) contradiction hordered) (by decide)
  have hctx : ctx = ((addParts contradiction).run.run (empty {} (⟨0⟩ : SplitMix))).2 := by rw [hrun]
  have hunsat : (solve.run.run ctx).1.toOption = some .unsatisfiable := by
    rw [hctx]
    decide +kernel
  refine ⟨hordered, ?_⟩
  rcases hresult : solve.run.run ctx with ⟨result, ctx'⟩
  rw [hresult] at hunsat
  cases result with
  | error fault => exact absurd hunsat (by simp [Except.toOption])
  | ok report =>
    obtain rfl : report = .unsatisfiable := Option.some.inj hunsat
    exact hanswer ctx' (hsolve _ ctx' hresult)

/-- The values found for a satisfiable problem are values of all atoms, and they satisfy the clauses
of the problem and the clauses added. -/
theorem satisfiable_correct (config : Config) (random : ρ) (parts : List Part)
    (hparts : Part.Ordered 0 parts) :
    Ends (addParts parts) (empty config random) (fun _ ctx =>
      (∀ report ctx', solve.run.run ctx = (.ok report, ctx') →
        Moves (.start, ctx) (.finished report, ctx')) ∧
      ∀ ctx', Moves (.start, ctx) (.finished .satisfiable, ctx') →
        ctx'.atoms.count = Part.atomCount parts ∧
        (∀ atom < ctx'.atoms.count, ctx'.valuation atom ≠ none) ∧
        ∀ clause ∈ Part.clauses parts ++ ctx'.clauses.additionClauses,
          ctx'.valuation.satisfies clause = true)
      fun fault ctx => Depleted fault ctx ∧ ¬ Part.Fits parts := by
  refine ends_mono (built_parts config random hparts) ?_ fun _ _ => id
  rintro _ ctx ⟨hbuilt, _, hcount⟩
  refine ⟨fun _ _ => moves_of_solve, ?_⟩
  intro ctx' hmoves
  obtain ⟨hextends, hsound, hwaiting, htotal⟩ := hbuilt.standing.moves hmoves
  have hcount' : ctx'.atoms.count = Part.atomCount parts := hextends.count.trans hcount
  have hclauses : ∀ clause ∈ Part.clauses parts, ctx'.valuation.satisfies clause = true := by
    refine hbuilt.satisfies_of_moves (fun clause hmem literal hliteral => ?_) hmoves
    have hlt := hparts.atom_lt hmem literal hliteral
    rwa [Nat.zero_add, ← hcount] at hlt
  refine ⟨hcount', fun atom hlt hnone => htotal atom hlt (AtomTable.valuation_eq_none.1 hnone), ?_⟩
  intro clause hmem
  rcases List.mem_append.1 hmem with hmem | hmem
  · exact hclauses clause hmem
  · obtain ⟨key, hhas⟩ := ClauseStore.mem_clauses_iff.1 (List.mem_append_right _ hmem)
    exact hwaiting.entailed_satisfied htotal hsound hclauses hhas

def exclusion : List Part :=
  [.atom "p", .atom "q", .clause [⟨0, true⟩, ⟨1, true⟩], .clause [⟨0, false⟩, ⟨1, false⟩]]

set_option maxRecDepth 100000 in
theorem satisfiable_correct_exclusion :
    Part.Ordered 0 exclusion ∧ ∃ ctx : Context SplitMix,
      solve.run.run ((addParts exclusion).run.run (empty {} ⟨0⟩)).2 = (.ok .satisfiable, ctx) ∧
        ∀ clause ∈ Part.clauses exclusion, ctx.valuation.satisfies clause = true := by
  have hordered : Part.Ordered 0 exclusion := by decide
  obtain ⟨ctx, hrun, hsolve, hanswer⟩ :=
    exists_of_fits (satisfiable_correct {} (⟨0⟩ : SplitMix) exclusion hordered) (by decide)
  have hctx : ctx = ((addParts exclusion).run.run (empty {} (⟨0⟩ : SplitMix))).2 := by rw [hrun]
  have hreport : (solve.run.run ctx).1.toOption = some .satisfiable := by
    rw [hctx]
    decide +kernel
  rw [← hctx]
  refine ⟨hordered, ?_⟩
  rcases hresult : solve.run.run ctx with ⟨result, ctx'⟩
  rw [hresult] at hreport
  cases result with
  | error fault => exact absurd hreport (by simp [Except.toOption])
  | ok report =>
    obtain rfl : report = .satisfiable := Option.some.inj hreport
    obtain ⟨_, _, hclauses⟩ := hanswer ctx' (hsolve _ ctx' hresult)
    exact ⟨ctx', rfl, fun clause hmem => hclauses clause (List.mem_append_left _ hmem)⟩

/-- Without a time limit a search ends, and its answer is not that it is unknown. At each point the
operations called return, a search that is not finished goes on, and no sequence of moves is longer
than the budget allows. A search breaks off only if no number is left for a clause it is to learn.
-/
theorem solve_terminates (config : Config) (random : ρ) (parts : List Part)
    (hparts : Part.Ordered 0 parts) (hlimit : config.timeLimit = none) :
    Ends (addParts parts) (empty config random) (fun _ ctx =>
      Ends solve ctx (fun report _ => report = .satisfiable ∨ report = .unsatisfiable)
        (StorageExhausted .addition) ∧
      (∀ phase ctx', Moves (.start, ctx) (phase, ctx') → ctx'.Returns phase ∧
        (phase = .finished .satisfiable ∨ phase = .finished .unsatisfiable ∨
          (∃ point, Move (phase, ctx') point) ∨
            ∃ fault last, Breaks (phase, ctx') fault last ∧ StorageExhausted .addition fault last)) ∧
      ∀ points, List.IsChain Move ((.start, ctx) :: points) →
        points.length ≤ 3 * roundBudget ctx.atoms.count + ctx.trail.ground.length + 3)
      fun fault ctx => Depleted fault ctx ∧ ¬ Part.Fits parts := by
  refine ends_mono (built_parts config random hparts) ?_ fun _ _ => id
  rintro _ ctx ⟨hbuilt, hconfig, _⟩
  have hstanding := hbuilt.standing
  have hknown : ∀ ctx', ¬ Moves (.start, ctx) (.finished .unknown, ctx') := fun _ =>
    hbuilt.known_of_moves (by rw [hconfig, hlimit])
  refine ⟨?_, fun phase ctx' hmoves => ⟨(hstanding.moves hmoves).returns, ?_⟩,
    fun points hchain => hstanding.length_le points hchain⟩
  · refine ends_mono (solve_spec hstanding) ?_ ?_
    · intro report ctx' hmoves
      cases report with
      | satisfiable => exact Or.inl rfl
      | unsatisfiable => exact Or.inr rfl
      | unknown => exact absurd hmoves (hknown ctx')
    · rintro fault ctx' ⟨_, _, _, _, hexhausted⟩
      exact hexhausted.toStorageExhausted
  · -- no limit, no answer `unknown`; any point that is no answer has a move or a fault
    by_cases hphase : ∃ report, phase = .finished report
    · obtain ⟨report, rfl⟩ := hphase
      cases report with
      | satisfiable => exact Or.inl rfl
      | unsatisfiable => exact Or.inr (Or.inl rfl)
      | unknown => exact absurd hmoves (hknown ctx')
    · refine Or.inr (Or.inr (((hstanding.moves hmoves).progress fun report heq =>
        hphase ⟨report, heq⟩).imp_right ?_))
      rintro ⟨fault, last, hbreaks, hexhausted⟩
      exact ⟨fault, last, hbreaks, hexhausted.toStorageExhausted⟩

set_option maxRecDepth 100000 in
/-- In a search as short as this one no number runs out. -/
theorem solve_contradiction_not_exhausted {ctx ctx' : Context SplitMix} {fault : Fault}
    (hparts : (addParts contradiction).run.run (empty {} ⟨0⟩) = (.ok (), ctx))
    (hsolve : solve.run.run ctx = (.error fault, ctx')) :
    ¬ StorageExhausted .addition fault ctx' := by
  have hroom : ((solve.run.run ctx).2.clauses.shelf .addition).isFull = false := by
    rw [show ctx = ((addParts contradiction).run.run (empty {} (⟨0⟩ : SplitMix))).2 by rw [hparts]]
    decide +kernel
  rw [hsolve] at hroom
  exact fun hexhausted => absurd hexhausted.full (by simp [hroom])

theorem solve_terminates_contradiction :
    Part.Ordered 0 contradiction ∧ (∃ ctx : Context SplitMix,
      (addParts contradiction).run.run (empty {} ⟨0⟩) = (.ok (), ctx) ∧
        ∃ report ctx', solve.run.run ctx = (.ok report, ctx') ∧
          (report = .satisfiable ∨ report = .unsatisfiable)) := by
  have hordered : Part.Ordered 0 contradiction := by decide
  obtain ⟨ctx, hrun, hsolve, _⟩ := exists_of_fits
    (solve_terminates {} (⟨0⟩ : SplitMix) contradiction hordered rfl) (by decide)
  refine ⟨hordered, ctx, hrun, ?_⟩
  rcases run_of_ends hsolve with ⟨report, ctx', hrun', hreport⟩ | ⟨fault, ctx', hrun', hexhausted⟩
  · exact ⟨report, ctx', hrun', hreport⟩
  · exact absurd hexhausted (solve_contradiction_not_exhausted hrun hrun')

/-- The only fault of a search, with a time limit or without, is that no number is left for a clause
it is to learn, and no operation called at any point of one has another fault. Each clause on the
list of a literal is stored, and with that literal turned to its second watch it is the clause to
examine. -/
theorem solve_never_fails (config : Config) (random : ρ) (parts : List Part)
    (hparts : Part.Ordered 0 parts) :
    Ends (addParts parts) (empty config random) (fun _ ctx =>
      Ends solve ctx (fun _ _ => True) (StorageExhausted .addition) ∧
      ∀ phase ctx', Moves (.start, ctx) (phase, ctx') → ctx'.Returns phase ∧
        ((∀ report, phase ≠ .finished report) → ∀ literal, ∀ key ∈ ctx'.watches.watching literal,
          ∃ watched turned, ctx'.clauses.get? key = some watched ∧
            watched.turn? literal = some turned ∧ turned.second = literal))
      fun fault ctx => Depleted fault ctx ∧ ¬ Part.Fits parts := by
  refine ends_mono (built_parts config random hparts) ?_ fun _ _ => id
  rintro _ ctx ⟨hbuilt, _⟩
  have hstanding := hbuilt.standing
  refine ⟨?_, fun phase ctx' hmoves => ⟨(hstanding.moves hmoves).returns, ?_⟩⟩
  · refine ends_mono (solve_spec hstanding) (fun _ _ _ => trivial) ?_
    rintro fault ctx' ⟨_, _, _, _, hexhausted⟩
    exact hexhausted.toStorageExhausted
  · intro hphase literal key hkey
    have hintact := (hstanding.moves hmoves).intact hphase
    obtain ⟨watched, hget, hwatches⟩ := (hintact.exact.mem_iff key literal).1 hkey
    obtain ⟨turned, hturn, hsecond, _⟩ := WatchedClause.turn?_spec hwatches
    exact ⟨watched, turned, hget, hturn, hsecond⟩

theorem solve_never_fails_contradiction :
    Part.Ordered 0 contradiction ∧ (∃ ctx : Context SplitMix,
      (addParts contradiction).run.run (empty {} ⟨0⟩) = (.ok (), ctx) ∧
        ∃ report ctx', solve.run.run ctx = (.ok report, ctx')) := by
  have hordered : Part.Ordered 0 contradiction := by decide
  obtain ⟨ctx, hrun, hsolve, _⟩ := exists_of_fits
    (solve_never_fails {} (⟨0⟩ : SplitMix) contradiction hordered) (by decide)
  refine ⟨hordered, ctx, hrun, ?_⟩
  rcases run_of_ends hsolve with ⟨report, ctx', hrun', _⟩ | ⟨fault, ctx', hrun', hexhausted⟩
  · exact ⟨report, ctx', hrun'⟩
  · exact absurd hexhausted (solve_contradiction_not_exhausted hrun hrun')

end Satisfiability.Context
