import Satisfiability.Proofs.Context.Session

/-!
# The calls made in a session

A session changes clauses and watches only by storing a clause, propagating a literal, returning to
a level and learning a clause (`Calls`). These calls have no fault, whether a propagation ends in a
conflict or not, but that no number is left for a clause. After each of them every stored clause is
on the lists of its first two literals, once, and on no others, and the shelves hold what was
stored, up to the order of the literals (`Calls.indexed`).
-/

namespace Satisfiability.Context

open Search Step Trail

variable {ρ : Type} {ctx before ctx' : Context ρ} {log : List (Source × Clause)} {clause : Clause}
  {asserted : Literal} {level : Nat} {call : Call}

/-- A call of an operation that changes the clauses, their watches, or the level. -/
inductive Call where
  | store (clause : Clause) (source : Source)
  | propagate (literal : Literal)
  | backjump (target : Nat)
  | backtrack (clause : Clause) (asserted : Literal) (level : Nat)

namespace Call

def run : Call → Step (Context ρ) Unit
  | store clause source => discard (storeClause clause source)
  | propagate literal => discard (Context.propagate literal)
  | backjump target => Context.backjump target
  | backtrack clause asserted level => discard (Context.backtrack clause asserted level)

def stores : Call → List (Source × Clause)
  | store clause source => logged source clause
  | backtrack clause _ _ => logged .addition clause
  | propagate _ | backjump _ => []

end Call

/-- The calls made in sessions, with what was stored before. -/
inductive Calls [RandomSource ρ] (log : List (Source × Clause)) : Call → Context ρ → Prop
  | stored {ctx : Context ρ} {clause canonical : Clause}
    (h : Session log (.start, ctx)) (hatoms : ∀ literal ∈ clause, literal.atom < ctx.atoms.count)
    (hdecision : ctx.trail.hasDecision = false) (hcanonical : clause.canonical? = some canonical)
    (hlength : 2 ≤ canonical.length) : Calls log (.store canonical .problem) ctx
  /-- A literal that is true without a decision is propagated. -/
  | ground {ctx : Context ρ} {literal : Literal} {rest : List Literal}
    (h : Session log (.ground (literal :: rest), ctx)) : Calls log (.propagate literal) ctx
  /-- A literal that was decided or learnt is propagated. -/
  | propagated {ctx : Context ρ} {literal : Literal}
    (h : Session log (.propagate literal, ctx)) : Calls log (.propagate literal) ctx
  | learnt {ctx : Context ρ} {key : ClauseKey} {learnt : Asserting}
    (h : Session log (.learn key, ctx)) (hanalyse : ctx.analyse key = .ok (.learnt learnt)) :
    Calls log (.backtrack learnt.clause learnt.asserted learnt.level) ctx.withConflict
  /-- For a learnt clause the search returns to a level, and to the ground for one of one literal. -/
  | returned {ctx : Context ρ} {clause : Clause} {asserted : Literal}
    {level : Nat} (h : Calls log (.backtrack clause asserted level) ctx) :
    Calls log (.backjump (if clause.length = 1 then 0 else level)) ctx
  | added {ctx ctx' : Context ρ} {clause : Clause}
    {asserted : Literal} {level : Nat} (h : Calls log (.backtrack clause asserted level) ctx)
    (hlength : 2 ≤ clause.length) (hrun : (backjump level).run.run ctx = (.ok (), ctx')) :
    Calls log (.store clause .addition) ctx'

structure Learns (log : List (Source × Clause)) (ctx : Context ρ) (clause : Clause)
    (asserted : Literal) (level : Nat) : Prop where
  intact : ctx.Intact
  justified : ctx.Justified
  accounted : ctx.Accounted log
  assertable : ctx.Assertable clause asserted level
  forced : ctx.ForcedBy clause asserted level
  guarded : ctx.Guarded (fun _ other => (-other, ctx.trail.level) ∈ ctx.trail.marked) False

variable [RandomSource ρ] [LawfulRandomSource ρ]

theorem Calls.learns (h : Calls log (.backtrack clause asserted level) ctx) :
    Learns log ctx clause asserted level := by
  cases h with
  | @learnt ctx key learnt h hanalyse =>
    have hkept := h.kept
    have hconflict := hkept.poised.2
    have hlevel := level_pos_of_analyse hanalyse
    have hcounted := similar_withConflict hkept.intact.agrees.coherent
    obtain ⟨hassertable, hsound⟩ := Assertable.of_analyse hkept.intact hconflict hlevel hanalyse
    exact ⟨hcounted.intact hkept.intact, hcounted.justified hkept.justified,
      hcounted.accounted hkept.accounted, hassertable.withConflict,
      (hsound hkept.justified).1, hcounted.guarded hconflict.guarded⟩

omit [RandomSource ρ] [LawfulRandomSource ρ] in
theorem Learns.returned (h : Learns log ctx clause asserted level) :
    Ensures (backjump level) ctx (fun _ ctx' => ctx.Returned level ctx') never :=
  backjump_spec h.intact.agrees (Nat.le_of_lt (h.assertable.target_lt h.intact.agrees))

/-- What is true after each call: the context is in order, with what was stored. -/
structure Regular (log : List (Source × Clause)) (ctx : Context ρ) : Prop where
  intact : ctx.Intact
  justified : ctx.Justified
  accounted : ctx.Accounted log

/-- No number is left for a clause that was to be stored, and the context is in order without it. -/
structure Spared (log added : List (Source × Clause)) (fault : Fault) (ctx : Context ρ) : Prop where
  exhausted : ∃ entry ∈ added, StorageExhausted entry.1 fault ctx
  regular : Regular log ctx

omit [RandomSource ρ] [LawfulRandomSource ρ] in
theorem Refused.spared {source : Source} {fault : Fault} (h : before.Refused source fault ctx')
    (hlength : 2 ≤ clause.length) (hregular : Regular log before) :
    Spared log (logged source clause) fault ctx' := by
  have hlogged : logged source clause = [(source, clause)] := if_pos hlength
  refine ⟨⟨(source, clause), ?_, h.toStorageExhausted⟩, h.similar.intact hregular.intact,
    h.similar.justified hregular.justified, h.similar.accounted hregular.accounted⟩
  rw [hlogged]
  exact List.mem_cons_self

/-- A call made in a session leaves the context in order, and has no fault while there are numbers.
-/
theorem Calls.spec (h : Calls log call ctx) :
    Ends call.run ctx (fun _ => Regular (log ++ call.stores)) (Spared log call.stores) := by
  cases h with
  | @stored ctx clause canonical h hatoms hdecision hcanonical hlength =>
    have hkept := h.kept
    obtain ⟨hnodup, hmem⟩ := Clause.canonical?_eq_some hcanonical
    simp only [Call.run, Call.stores, ends_discard]
    refine ends_mono (storeClause_spec hkept.intact.agrees hkept.intact.exact hnodup
      (fun literal hliteral => hatoms literal ((hmem literal).1 hliteral)) hlength .problem) ?_
        fun _ _ hrefused => hrefused.spared hlength ⟨hkept.intact, hkept.justified, hkept.accounted⟩
    exact fun _ ctx' hstored => ⟨hstored.intact hkept.intact, hstored.justified hkept.justified,
      hstored.accounted hkept.accounted⟩
  | @ground ctx literal rest h =>
    have hkept := h.kept
    simp only [Call.run, Call.stores, ends_discard, List.append_nil]
    refine ends_of_ensures hkept.ground ?_
    rintro _ ctx' ⟨news, hpropagated, hintact, _⟩
    exact ⟨hintact, hpropagated.justified hkept.justified, hpropagated.accounted log hkept.accounted⟩
  | @propagated ctx literal h =>
    have hkept := h.kept
    simp only [Call.run, Call.stores, ends_discard, List.append_nil]
    refine ends_of_ensures (propagate_spec [] hkept.poised.2) ?_
    rintro (_ | key) ctx' ⟨news, hpropagated, hresult⟩
    · exact ⟨hresult.intact, hpropagated.justified hkept.justified,
        hpropagated.accounted log hkept.accounted⟩
    · exact ⟨hresult.1, hpropagated.justified hkept.justified,
        hpropagated.accounted log hkept.accounted⟩
  | @learnt ctx key learnt h hanalyse =>
    have hlearns := (Calls.learnt h hanalyse).learns
    have hagrees := hlearns.intact.agrees
    simp only [Call.run, Call.stores, ends_discard]
    -- what is pending is false on the newest level, which is left
    refine ends_mono (backtrack_spec hlearns.intact hlearns.assertable hlearns.guarded
      fun _ _ _ hnewest => hlearns.assertable.lt_of_newest hagrees hnewest) ?_ ?_
    · exact fun _ ctx' hlearnt => ⟨hlearnt.waiting.intact,
        (hlearnt.sound _ hlearns.justified.sound hlearns.forced fun _ => False.elim).justified,
        hlearnt.accounted log hlearns.accounted hlearns.forced hlearns.assertable.highest⟩
    · rintro fault ctx' ⟨hlength, _, before, hreturned, _, hrefused⟩
      exact hrefused.spared hlength ⟨hreturned.intact hlearns.intact, hreturned.justified hlearns.justified,
        hreturned.accounted hlearns.accounted⟩
  | @returned ctx clause asserted level h =>
    have hlearns := h.learns
    have hagrees := hlearns.intact.agrees
    have htarget := hlearns.assertable.target_lt hagrees
    simp only [Call.run, Call.stores, List.append_nil]
    refine ends_of_ensures (backjump_spec hagrees ?_) fun _ ctx' hreturned =>
      ⟨hreturned.intact hlearns.intact, hreturned.justified hlearns.justified,
        hreturned.accounted hlearns.accounted⟩
    split
    · exact Nat.zero_le _
    · exact Nat.le_of_lt htarget
  | @added before ctx clause asserted level h hlength hrun =>
    have hlearns := h.learns
    have hreturned := ensures_ok hlearns.returned hrun
    have hintact := hreturned.intact hlearns.intact
    have hjustified := hreturned.justified hlearns.justified
    have haccounted := hreturned.accounted hlearns.accounted
    have hproper := hlearns.assertable.proper
    have hatoms : ∀ literal ∈ clause, literal.atom < ctx.atoms.count := by
      rw [hreturned.extends.count]
      exact hproper.atoms
    simp only [Call.run, Call.stores, ends_discard]
    exact ends_mono (storeClause_spec hintact.agrees hintact.exact hproper.nodup hatoms hlength .addition)
      (fun _ ctx'' hstored => ⟨hstored.intact hintact, hstored.justified hjustified,
        hstored.accounted haccounted⟩)
      fun _ _ hrefused => hrefused.spared hlength ⟨hintact, hjustified, haccounted⟩

/-- Every stored clause is on the lists of its first two literals, once, and on no others, and no
list has other keys. -/
structure Indexed (ctx : Context ρ) : Prop where
  once : ∀ key watched, ctx.clauses.get? key = some watched → ∀ literal,
    (ctx.watches.watching literal).count key =
      if literal = watched.first ∨ literal = watched.second then 1 else 0
  stored : ∀ literal, ∀ key ∈ ctx.watches.watching literal,
    ∃ watched, ctx.clauses.get? key = some watched

omit [RandomSource ρ] [LawfulRandomSource ρ] in
theorem Intact.indexes_watches (h : ctx.Intact) : ctx.Indexed := by
  refine ⟨fun key watched hget literal => ?_, fun literal key hmem => ?_⟩
  · have hmem : key ∈ ctx.watches.watching literal ↔
        literal = watched.first ∨ literal = watched.second := by
      simp only [h.exact.mem_iff, hget, Option.some.injEq, exists_eq_left', eq_comm]
    rw [(h.exact.nodup literal).count]
    simp only [hmem]
  · obtain ⟨watched, hget, _⟩ := (h.exact.mem_iff key literal).1 hmem
    exact ⟨watched, hget⟩

/-- After each call made in a session the index of watches is right, and the shelves hold what was
stored, up to the order of literals, also where no number was left for what the call was to store.
-/
theorem Calls.indexed (h : Calls log call ctx) :
    Ends call.run ctx
      (fun _ ctx' => ctx'.Indexed ∧ ctx'.clauses.Records (log ++ call.stores))
      fun fault ctx' => (∃ entry ∈ call.stores, StorageExhausted entry.1 fault ctx') ∧
        ctx'.Indexed ∧ ctx'.clauses.Records log := by
  refine ends_mono h.spec ?_ ?_
  · rintro _ ctx' ⟨hintact, _, haccounted⟩
    exact ⟨hintact.indexes_watches, haccounted.records⟩
  · rintro fault ctx' ⟨hexhausted, hintact, _, haccounted⟩
    exact ⟨hexhausted, hintact.indexes_watches, haccounted.records⟩

namespace Diamond

/-- An atom from which two others follow, from both of them a fourth one, and from that a conflict.
-/
def parts : List Part :=
  [.atom "a", .atom "b", .atom "c", .atom "d", .atom "e", .atom "f",
    .clause [⟨0, false⟩, ⟨1, true⟩], .clause [⟨0, false⟩, ⟨2, true⟩],
    .clause [⟨1, false⟩, ⟨2, false⟩, ⟨3, true⟩], .clause [⟨3, false⟩, ⟨4, true⟩],
    .clause [⟨3, false⟩, ⟨5, true⟩], .clause [⟨4, false⟩, ⟨5, false⟩],
    .clause [⟨0, true⟩, ⟨1, true⟩], .clause [⟨0, true⟩, ⟨4, true⟩], .clause [⟨0, true⟩, ⟨5, true⟩]]

def posed : Context SplitMix := ((addParts parts).run.run (empty {} ⟨0⟩)).2

def opened : Context SplitMix :=
  ((propagateGround posed.trail.ground).run.run (posed.withState .solving)).2

def chosen : Context SplitMix := (decision.run.run opened.counted).2

def decided : Context SplitMix :=
  ((do openLevel; record ⟨0, true⟩ none : Step (Context SplitMix) Unit).run.run chosen).2

set_option maxRecDepth 100000 in
theorem session : ∃ log, Session log (.propagate ⟨0, true⟩, decided) := by
  have hparts : (addParts parts).run.run (empty {} (⟨0⟩ : SplitMix)) = (.ok (), posed) :=
    Prod.ext (by decide +kernel : _ = Except.ok ()) rfl
  have hground : (propagateGround posed.trail.ground).run.run (posed.withState .solving) =
      (.ok true, opened) := Prod.ext (by decide +kernel : _ = Except.ok true) rfl
  have hdecision : decision.run.run opened.counted = (.ok (some ⟨0, true⟩), chosen) :=
    Prod.ext (by decide +kernel : _ = Except.ok (some (⟨0, true⟩ : Literal))) rfl
  have hrecord : (do openLevel; record ⟨0, true⟩ none : Step (Context SplitMix) Unit).run.run chosen =
      (.ok (), decided) := Prod.ext (by decide +kernel : _ = Except.ok ()) rfl
  obtain ⟨_, hposed⟩ := (Session.empty {} (⟨0⟩ : SplitMix)).addParts (by decide) hparts
  obtain ⟨_, hopened⟩ := hposed.started (by decide +kernel) hground
  exact ⟨_, hopened.move (.decided hdecision hrecord)⟩

end Diamond

theorem Calls.indexed_diamond : ∃ log, Calls log (.propagate ⟨0, true⟩) Diamond.decided ∧
    Ends (Call.propagate ⟨0, true⟩).run Diamond.decided
      (fun _ ctx' => ctx'.Indexed ∧ ctx'.clauses.Records (log ++ (Call.propagate ⟨0, true⟩).stores))
      fun fault ctx' =>
        (∃ entry ∈ (Call.propagate ⟨0, true⟩).stores, StorageExhausted entry.1 fault ctx') ∧
          ctx'.Indexed ∧ ctx'.clauses.Records log := by
  obtain ⟨log, hsession⟩ := Diamond.session
  have hcall : Calls log (.propagate ⟨0, true⟩) Diamond.decided := .propagated hsession
  exact ⟨log, hcall, hcall.indexed⟩

end Satisfiability.Context
