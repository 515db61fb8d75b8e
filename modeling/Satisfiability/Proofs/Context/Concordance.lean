import Satisfiability.Proofs.Context.Asserting
import Satisfiability.Proofs.Context.Tasks

/-!
# Values, trail and graph

What is known of the atoms is kept several times: in the table of atoms, on the trail, and in the
implication graph with its edges noted at both ends. At every point of a session these agree
(`Concordant`). A literal is made true by a unit clause, by decision, on the way of a propagation
and after a learnt clause was added, and wherever that happens, and after each call in which values
are given or taken back, they agree again (`Updates.concordant`).
-/

namespace Satisfiability.Context

open Search Step Trail

variable {ρ : Type} {ctx ctx' : Context ρ} {log : List (Source × Clause)}

structure Concordant (ctx : Context ρ) : Prop where
  /-- An atom has a value exactly if the trail has the literal with that value. -/
  valued : ∀ atom value, ctx.valuation atom = some value ↔ ⟨atom, value⟩ ∈ ctx.trail.literals
  once : (ctx.trail.literals.map Literal.atom).Nodup
  /-- The level and the position of an atom are those of its literal on the trail. -/
  placed : ∀ (position : Nat) literal level,
    ctx.trail.marked[position]? = some (literal, level) →
      ctx.atoms.level? literal.atom = some level ∧ ctx.atoms.position? literal.atom = some position
  /-- The reason of a literal contains it, its other literals became false before, and above the
  ground one of them on the same level. -/
  forced : ∀ (position : Nat) literal level source index,
    ctx.trail.marked[position]? = some (literal, level) →
      ctx.graph.reason? literal.atom = some (.stored source index) →
        ∃ clause, ctx.clauses.literals? (.stored source index) = some clause ∧ literal ∈ clause ∧
          (∀ other ∈ clause, other ≠ literal → ctx.valuation.status other = .fails ∧
            ∃ earlier < position, ctx.atoms.position? other.atom = some earlier) ∧
          (0 < level → ∃ other ∈ clause, other ≠ literal ∧
            ctx.atoms.level? other.atom = some level)
  /-- The parents of an atom are the other atoms of its reason. -/
  parents : ∀ atom parent, parent ∈ (ctx.graph.node atom).parents ↔ ∃ key clause,
    ctx.graph.reason? atom = some key ∧ ctx.clauses.literals? key = some clause ∧
      parent ∈ clause.atoms ∧ parent ≠ atom
  /-- The children of an atom are the atoms of which it is a parent. -/
  children : ∀ atom child, child ∈ (ctx.graph.node atom).children ↔
    atom ∈ (ctx.graph.node child).parents
  /-- An atom without a value has no reason and no edges. -/
  bare : ∀ atom, ctx.valuation atom = none → ctx.graph.node atom = {}
  undangling : ctx.graph.hasDanglingEdge (fun atom => (ctx.valuation atom).isSome) = false

section agrees

variable (hagrees : ctx.Agrees) (hjustified : ctx.Justified) (haccounted : ctx.Accounted log)

include hagrees hjustified in
theorem Agrees.forced_before {position level : Nat} {literal : Literal} {key : ClauseKey}
    (hmark : ctx.trail.marked[position]? = some (literal, level))
    (hreason : ctx.graph.reason? literal.atom = some key) :
    ∃ clause, ctx.clauses.Has key clause ∧ literal ∈ clause ∧ ∀ other ∈ clause, other ≠ literal →
      ctx.valuation.status other = .fails ∧
        ∃ earlier < position, ctx.atoms.position? other.atom = some earlier := by
  have hforces := hjustified position literal level hmark
  rw [hreason] at hforces
  obtain ⟨clause, hhas, hmem, hothers⟩ := hforces
  refine ⟨clause, hhas, hmem, fun other hother hne => ?_⟩
  obtain ⟨earlier, hearlier, low, hmark'⟩ := hothers other hother hne
  have hposition := hagrees.position?_of_mark hmark'
  rw [Literal.atom_neg] at hposition
  exact ⟨hagrees.fails_iff.2 ⟨low, List.mem_of_getElem? hmark'⟩, earlier, hearlier, hposition⟩

include hagrees hjustified haccounted in
theorem Agrees.mem_parents_iff (atom parent : Atom) :
    parent ∈ (ctx.graph.node atom).parents ↔ ∃ key clause, ctx.graph.reason? atom = some key ∧
      ctx.clauses.literals? key = some clause ∧ parent ∈ clause.atoms ∧ parent ≠ atom := by
  rw [haccounted.parents, mem_reasonAtoms]
  constructor
  · rintro ⟨⟨source, index, clause, hreason, hhas, hmem⟩, hne⟩
    exact ⟨_, clause, hreason, ClauseStore.literals?_of_has hhas, hmem, hne⟩
  · rintro ⟨key, clause, hreason, hliterals, hmem, hne⟩
    cases key with
    | stored source index =>
      obtain ⟨watched, hget, rfl⟩ := Option.map_eq_some_iff.1 hliterals
      exact ⟨⟨source, index, _, hreason, ClauseStore.has_of_get? hget, hmem⟩, hne⟩
    | unit source literal =>
      -- the only atom of a unit clause is the one it forces
      rcases hplacement : ctx.atoms.placement? atom with _ | placement
      · rw [haccounted.linked.bare atom hplacement] at hreason
        cases hreason
      · obtain ⟨clause', hhas, hmem', _⟩ :=
          hagrees.forced_before hjustified ((hagrees.placed _ _).1 hplacement) hreason
        cases hliterals
        rw [hhas.1, List.mem_singleton] at hmem'
        obtain ⟨other, hother, rfl⟩ := List.mem_map.1 hmem
        rw [List.mem_singleton.1 hother, ← hmem'] at hne
        exact absurd rfl hne

include hagrees haccounted in
theorem Agrees.hasDanglingEdge_eq_false :
    ctx.graph.hasDanglingEdge (fun atom => (ctx.valuation atom).isSome) = false := by
  have hlinked := haccounted.linked
  have hvalued : ∀ {atom level}, ctx.atoms.level? atom = some level →
      (ctx.valuation atom).isSome = true := by
    intro atom level hlevel
    obtain ⟨value, hmark⟩ := hagrees.level?_eq_some.1 hlevel
    rw [hagrees.valuation_eq_some.2 ⟨level, hmark⟩, Option.isSome_some]
  unfold ImplicationGraph.hasDanglingEdge
  rw [List.any_eq_false]
  rintro ⟨node, atom⟩ hmem
  have hnode : ctx.graph.node atom = node := by
    rw [List.mem_zipIdx_iff_getElem?, Array.getElem?_toList] at hmem
    rw [ImplicationGraph.node, Array.getD_eq_getD_getElem?, hmem, Option.getD_some]
  subst hnode
  dsimp only
  split
  · -- the other end of each edge has a value
    rw [Bool.not_eq_true, List.any_eq_false]
    intro other hother
    rw [Bool.not_eq_true, Bool.not_eq_false']
    rcases List.mem_append.1 hother with hparent | hchild
    · obtain ⟨_, _, hlow, _⟩ := hlinked.rising atom other hparent
      exact hvalued hlow
    · obtain ⟨_, _, _, hhigh, _⟩ := hlinked.rising other atom ((hlinked.inverse other atom).1 hchild)
      exact hvalued hhigh
  · rename_i hnone
    rw [Bool.not_eq_true, Option.isSome_eq_false_iff, Option.isNone_iff_eq_none] at hnone
    rw [hlinked.node_eq (AtomTable.valuation_eq_none.1 hnone)]
    decide

include hagrees hjustified haccounted in
theorem Agrees.concordant_of_accounted : ctx.Concordant := by
  refine ⟨fun atom value => ?_, ?_, fun position literal level hmark => ?_,
    fun position literal level source index hmark hreason => ?_,
    hagrees.mem_parents_iff hjustified haccounted, fun atom child => haccounted.linked.inverse child atom,
    fun atom hnone => haccounted.linked.node_eq (AtomTable.valuation_eq_none.1 hnone),
    hagrees.hasDanglingEdge_eq_false haccounted⟩
  · rw [hagrees.valuation_eq_some, mem_literals_iff]
  · rw [← map_fst_marked, List.map_map]
    exact hagrees.nodup
  · exact ⟨hagrees.level?_of_mem (List.mem_of_getElem? hmark), hagrees.position?_of_mark hmark⟩
  · obtain ⟨clause, hhas, hmem, hothers⟩ := hagrees.forced_before hjustified hmark hreason
    refine ⟨clause, ClauseStore.literals?_of_has hhas, hmem, hothers, fun hlevel => ?_⟩
    obtain ⟨clause', hhas', other, hother, hne, hmark'⟩ :=
      haccounted.anchored literal level _ (List.mem_of_getElem? hmark) hlevel hreason
    exact ⟨other, hhas'.unique hhas ▸ hother, hne, hagrees.level?_of_neg_mem hmark'⟩

end agrees

/-! ## Where values are given and taken back -/

/-- What `backtrack` does before the asserted literal is made true. -/
def returnAndAdd (clause : Clause) (asserted : Literal) (level : Nat) :
    Step (Context ρ) ClauseKey := do
  let key ← match clause with
    | [] => throw (.clauses .emptyClause)
    | [_] => do
      backjump 0
      bump asserted.atom
      noteUnit asserted .addition
    | clause => do
      backjump level
      storeClause clause .addition
  modify fun ctx => { ctx with atoms := ctx.atoms.decay ctx.config.activityDecay.value }
  return key

theorem backtrack_eq (clause : Clause) (asserted : Literal) (level : Nat) :
    (backtrack clause asserted level : Step (Context ρ) ClauseKey) = do
      let key ← returnAndAdd clause asserted level
      record asserted (some key)
      return key := by
  match clause with
  | [] | [_] | _ :: _ :: _ => simp only [backtrack, returnAndAdd, bind_assoc, pure_bind]

/-- A call of an operation that gives values or takes them back. -/
inductive Update where
  | record (literal : Literal) (reason : Option ClauseKey)
  /-- Of one of the operations in which values are given or taken back. -/
  | call (other : Call)

def Update.run : Update → Step (Context ρ) Unit
  | .record literal reason => Context.record literal reason
  | .call other => other.run

def Update.stores : Update → List (Source × Clause)
  | .record .. => []
  | .call other => other.stores

theorem record_ne_storageExhausted (literal : Literal) (reason : Option ClauseKey) :
    Ensures (record literal reason) ctx (fun _ _ => True) (· ≠ .clauses .storageExhausted) := by
  unfold record
  rw [ensures_bind, ensures_get]
  dsimp only
  have hset (clauseAtoms : List Atom) : Ensures (do
      let atoms ← entry (ctx.atoms.setValue? literal ctx.trail.level ctx.trail.size)
      set { ctx with
        atoms
        trail := ctx.trail.push literal
        graph := ctx.graph.note literal.atom reason clauseAtoms } : Step (Context ρ) Unit) ctx
      (fun _ _ => True) (· ≠ .clauses .storageExhausted) := by
    cases ctx.atoms.setValue? literal ctx.trail.level ctx.trail.size <;> simp [entry]
  split
  · split
    · exact hset _
    · -- a reason that is not there is another fault
      simp
  · exact hset []

/-- The calls made in sessions, those of `record` among them. -/
inductive Updates [RandomSource ρ] (log : List (Source × Clause)) : Update → Context ρ → Prop
  | call {call : Call} {ctx : Context ρ} (h : Calls log call ctx) : Updates log (.call call) ctx
  /-- The literal of a unit clause of the problem is made true. -/
  | unit {ctx : Context ρ} {literal : Literal} (h : Session log (.start, ctx))
    (hatom : literal.atom < ctx.atoms.count) (hdecision : ctx.trail.hasDecision = false)
    (hopen : ctx.valuation.status literal = .unvalued) :
    Updates log (.record literal (some (.unit .problem literal))) (ctx.withUnit literal .problem)
  | decided {ctx ctx' : Context ρ} {literal : Literal} (h : Session log (.decide, ctx))
    (hrun : decision.run.run ctx.counted = (.ok (some literal), ctx')) :
    Updates log (.record literal none) ctx'.withLevel
  /-- On the way of a propagation a clause forces a literal. -/
  | forced {ctx ctx' : Context ρ} {first broken literal : Literal} {waiting implied : List Literal}
    {key : ClauseKey} {kept taken : List ClauseKey} {clause clause' : WatchedClause}
    (h : Calls log (.propagate first) ctx)
    (hworks : Works (.queue [first], ctx) (.examine waiting broken kept implied (key :: taken), ctx'))
    (hclause : ctx'.clauses.get? key = some clause)
    (hrewatch : clause.rewatch? broken ctx'.valuation = some (.unit literal, clause')) :
    Updates log (.record literal (some key)) (ctx'.withClause key clause')
  /-- A learnt clause was added and forces a literal. -/
  | asserted {ctx ctx' : Context ρ} {clause : Clause} {literal : Literal} {level : Nat}
    {key : ClauseKey} (h : Calls log (.backtrack clause literal level) ctx)
    (hrun : (returnAndAdd clause literal level).run.run ctx = (.ok key, ctx')) :
    Updates log (.record literal (some key)) ctx'

variable [RandomSource ρ] [LawfulRandomSource ρ]

/-- While a literal is propagated in a session, each step is ready, or idle where a search was
resumed. -/
theorem Calls.ready {literal : Literal} (h : Calls log (.propagate literal) ctx) :
    ctx.Intact ∧ ctx.Justified ∧ ctx.Accounted log ∧
      ((∃ later, ctx.Ready later False (.queue [literal])) ∨ ctx.Idle (.queue [literal])) := by
  cases h with
  | @ground ctx literal rest h =>
    have hkept := h.kept
    refine ⟨hkept.intact, hkept.justified, hkept.accounted, ?_⟩
    rcases hkept.poised.2 with ⟨_, hwaiting⟩ | ⟨hwaiting, hrest⟩
    · exact Or.inl ⟨rest, hwaiting⟩
    · refine Or.inr ⟨hwaiting, fun other hother => ?_⟩
      rw [List.mem_singleton.1 hother]
      exact ⟨0, hrest literal List.mem_cons_self⟩
  | propagated h =>
    have hkept := h.kept
    exact ⟨hkept.intact, hkept.justified, hkept.accounted, Or.inl ⟨[], hkept.poised.2⟩⟩

omit [RandomSource ρ] [LawfulRandomSource ρ] in
theorem concordant_of_regular (h : Regular log ctx) : ctx.Concordant :=
  h.intact.agrees.concordant_of_accounted h.justified h.accounted

/-- After each call made in a session, wherever a literal was made true and where values were taken
back, the values, the trail and the graph agree, also where no number was left for what the call was
to store. -/
theorem Updates.concordant {update : Update} (h : Updates log update ctx) :
    Ends update.run ctx (fun _ ctx' => ctx'.Concordant) fun fault ctx' =>
      (∃ entry ∈ update.stores, StorageExhausted entry.1 fault ctx') ∧ ctx'.Concordant := by
  cases h with
  | call h =>
    exact ends_mono h.spec (fun _ _ hregular => concordant_of_regular hregular)
      fun _ _ hspared => ⟨hspared.exhausted, concordant_of_regular hspared.regular⟩
  | @unit ctx literal h hatom hdecision hopen =>
    have hkept := h.kept
    have hlevel : ctx.trail.level = 0 := by simpa [hasDecision, level] using hdecision
    have hnone := hkept.intact.agrees.placement_eq_none.2 (hkept.intact.agrees.unvalued_iff.1 hopen)
    rw [Update.run]
    refine ends_of_ensures (record_spec hkept.intact.agrees.withUnit hatom hnone ?_) ?_
    · rintro _ ⟨⟩
      exact known_unit hatom .problem
    · intro _ ctx' hrecorded
      obtain ⟨hintact, hjustified, haccounted⟩ := hkept.recorded_unit hlevel hnone hrecorded
      exact hintact.agrees.concordant_of_accounted hjustified haccounted
  | @decided ctx ctx₁ literal h hrun =>
    have hkept := h.kept
    have hcounted := similar_counted hkept.intact.agrees.coherent
    obtain ⟨hsimilar, hopen⟩ := ensures_ok (decision_spec hcounted.coherent) hrun
    have hsimilar' := hcounted.trans hsimilar
    have hdecided := record_decision_spec (hsimilar'.waiting hkept.poised.2) (hsimilar.open_iff.2 hopen)
    rw [openLevel, ensures_bind, ensures_modify] at hdecided
    rw [Update.run]
    refine ends_of_ensures hdecided ?_
    intro _ ctx' hdecided
    exact hdecided.waiting.intact.agrees.concordant_of_accounted
      (hdecided.sound _ (hsimilar'.justified hkept.justified).sound).justified
      (hdecided.accounted log (hsimilar'.accounted hkept.accounted))
  | @forced ctx ctx₁ first broken literal waiting implied key kept taken clause clause' h hworks hclause
      hrewatch =>
    obtain ⟨_, hjustified, haccounted, ⟨later, hready⟩ | hidle⟩ := h.ready
    · obtain ⟨hexamining, news, hpropagated⟩ := Works.ready hworks hready
      rw [Update.run]
      refine ends_of_ensures (Examining.forced hexamining hclause hrewatch) ?_
      rintro _ ctx' ⟨hpropagated', hexamining'⟩
      have hall := hpropagated.trans hpropagated'
      exact hexamining'.agrees.concordant_of_accounted (hall.justified hjustified)
        (hall.accounted log haccounted)
    · -- nothing is forced where everything was seen to before
      obtain ⟨_, hreexamining, _⟩ := Works.idle hworks hidle
      obtain ⟨heq, _⟩ := hreexamining.update_eq hclause hrewatch
      cases heq
  | @asserted ctx ctx₁ clause literal level key h hrun =>
    have hspec := h.spec
    simp only [Call.run, ends_discard, backtrack_eq] at hspec
    rw [ends_bind] at hspec
    have hrecord := ends_ok hspec hrun
    rw [ends_bind] at hrecord
    rw [Update.run]
    refine ends_mono (ends_and (record_ne_storageExhausted literal (some key)) hrecord) ?_ ?_
    · rintro _ ctx' ⟨_, hregular⟩
      exact concordant_of_regular hregular
    · -- the clause is stored already, so there was a number for it
      rintro fault ctx' ⟨hne, ⟨_, _, hexhausted⟩, _⟩
      exact absurd hexhausted.cause hne

theorem Updates.concordant_diamond :
    ∃ log, Updates log (.call (.propagate ⟨0, true⟩)) Diamond.decided ∧
      Ends (Update.call (.propagate ⟨0, true⟩)).run Diamond.decided (fun _ ctx' => ctx'.Concordant)
        fun fault ctx' => (∃ entry ∈ (Update.call (.propagate ⟨0, true⟩)).stores,
          StorageExhausted entry.1 fault ctx') ∧ ctx'.Concordant := by
  obtain ⟨log, hsession⟩ := Diamond.session
  have hupdate : Updates log (.call (.propagate ⟨0, true⟩)) Diamond.decided :=
    .call (.propagated hsession)
  exact ⟨log, hupdate, hupdate.concordant⟩

end Satisfiability.Context
