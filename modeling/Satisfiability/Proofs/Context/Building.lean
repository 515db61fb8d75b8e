import Satisfiability.Proofs.Clause
import Satisfiability.Proofs.Context.Searching

/-!
# Building a problem

A problem comes about from an empty context part by part: atoms are created and clauses over them
added (`addParts`). If the problem fits, no part has a fault, and in the end everything is in order
for a search (`addParts_spec`): the context is sound for the models of the clauses, and each clause
is stored, true without a decision, or a tautology (`Keeps`).
-/

namespace Satisfiability.Context

open Search Step Trail

inductive Part where
  | atom (name : String)
  | clause (literals : Clause)
  deriving DecidableEq

namespace Part

def atomCount (parts : List Part) : Nat :=
  parts.countP fun | .atom _ => true | .clause _ => false

def clauses (parts : List Part) : List Clause :=
  parts.filterMap fun | .atom _ => none | .clause literals => some literals

variable {name : String} {literals : Clause} {rest : List Part}

@[simp]
theorem atomCount_atom : atomCount (.atom name :: rest) = atomCount rest + 1 :=
  List.countP_cons_of_pos rfl

@[simp]
theorem atomCount_clause : atomCount (.clause literals :: rest) = atomCount rest :=
  List.countP_cons_of_neg (by simp)

@[simp]
theorem clauses_atom : clauses (.atom name :: rest) = clauses rest := rfl

@[simp]
theorem clauses_clause : clauses (.clause literals :: rest) = literals :: clauses rest := rfl

def Fits (parts : List Part) : Prop :=
  atomCount parts ≤ AtomTable.greatestAtom + 1 ∧ (clauses parts).length ≤ halfWordCount

instance (parts : List Part) : Decidable (Fits parts) :=
  inferInstanceAs (Decidable (_ ∧ _))

/-- Each clause is about atoms created before it, where some number of atoms was there at first. -/
def Ordered : (count : Nat) → List Part → Prop
  | _, [] => True
  | count, .atom _ :: rest => Ordered (count + 1) rest
  | count, .clause literals :: rest =>
    (∀ literal ∈ literals, literal.atom < count) ∧ Ordered count rest

instance decidableOrdered : (count : Nat) → (parts : List Part) → Decidable (Ordered count parts)
  | _, [] => inferInstanceAs (Decidable True)
  | count, .atom _ :: rest => decidableOrdered (count + 1) rest
  | count, .clause literals :: rest =>
    have := decidableOrdered count rest
    inferInstanceAs (Decidable ((∀ literal ∈ literals, literal.atom < count) ∧ Ordered count rest))

theorem Ordered.atom_lt {parts : List Part} {count : Nat} {clause : Clause}
    (h : Ordered count parts) (hmem : clause ∈ clauses parts) :
    ∀ literal ∈ clause, literal.atom < count + atomCount parts := by
  induction parts generalizing count with
  | nil => exact absurd hmem List.not_mem_nil
  | cons part rest ih =>
    intro literal hliteral
    cases part with
    | atom name =>
      have hrest : Ordered (count + 1) rest := h
      refine Nat.lt_of_lt_of_eq (ih hrest hmem literal hliteral) ?_
      rw [atomCount_atom]
      omega
    | clause literals =>
      rw [atomCount_clause]
      rcases List.mem_cons.1 hmem with rfl | hmem
      · exact Nat.lt_add_right _ (h.1 literal hliteral)
      · exact ih h.2 hmem literal hliteral

end Part

variable {ρ : Type} {ctx ctx' : Context ρ} {clause : Clause} {clauses : List Clause}
  {literal : Literal}

def addPart : Part → Step (Context ρ) Unit
  | .atom name => discard (freshAtom name)
  | .clause literals => discard (addClause literals)

def addParts (parts : List Part) : Step (Context ρ) Unit := parts.forM addPart

def empty (config : Config) (random : ρ) : Context ρ := { config, random }

def Models (clauses : List Clause) (model : Atom → Bool) : Prop :=
  ∀ clause ∈ clauses, Satisfied model clause

/-- The clause is a tautology, has a literal that is true without a decision, or is stored. -/
def Keeps (ctx : Context ρ) (clause : Clause) : Prop :=
  (∃ literal ∈ clause, -literal ∈ clause) ∨
    (∃ literal ∈ clause, (literal, 0) ∈ ctx.trail.marked) ∨
      ∃ source index clause', ctx.clauses.Has (.stored source index) clause' ∧ clause' ⊆ clause

structure Built (ctx : Context ρ) (clauses : List Clause) : Prop where
  waiting : ctx.Waiting ctx.trail.ground
  level : ctx.trail.level = 0
  sound : ctx.Sound (Models clauses)
  state : ctx.state = .input ∨ ctx.state = .unsatisfiable
  kept : ctx.state ≠ .unsatisfiable → ∀ clause ∈ clauses, ctx.Keeps clause

/-- The context holds a problem of these clauses, and no decision has been made; there may have been
a search that needed none. -/
structure Grounded (ctx : Context ρ) (clauses : List Clause) : Prop where
  waiting : ctx.Waiting ctx.trail.ground
  level : ctx.trail.level = 0
  sound : ctx.Sound (Models clauses)
  kept : ctx.state ≠ .unsatisfiable → ∀ clause ∈ clauses, ctx.Keeps clause

theorem Built.grounded (h : ctx.Built clauses) : ctx.Grounded clauses :=
  ⟨h.waiting, h.level, h.sound, h.kept⟩

theorem Grounded.built (h : ctx.Grounded clauses)
    (hstate : ctx.state = .input ∨ ctx.state = .unsatisfiable) : ctx.Built clauses :=
  ⟨h.waiting, h.level, h.sound, hstate, h.kept⟩

structure Enlarged (ctx : Context ρ) (clauses : List Clause) (clause : Clause) (ctx' : Context ρ) :
    Prop where
  grounded : ctx'.Grounded (clauses ++ [clause])
  extension : ctx.Extends ctx'
  state : ctx'.state = ctx.state ∨ ctx'.state = .unsatisfiable

theorem Extends.keeps (h : ctx.Extends ctx') (hkeeps : ctx.Keeps clause) : ctx'.Keeps clause := by
  refine hkeeps.imp_right fun hkeeps => hkeeps.imp ?_ ?_
  · rintro ⟨literal, hmem, hground⟩
    exact ⟨literal, hmem, h.ground literal hground⟩
  · rintro ⟨source, index, clause', hhas, hsubset⟩
    obtain ⟨clause'', hhas', hperm⟩ := h.grows _ _ hhas
    exact ⟨source, index, clause'', hhas', List.Subset.trans hperm.subset hsubset⟩

theorem Sound.mono {M M' : (Atom → Bool) → Prop} (h : ctx.Sound M)
    (hmodels : ∀ model, M' model → M model) : ctx.Sound M' :=
  ⟨h.justified, fun key clause hhas model hmodel => h.entailed key clause hhas model
    (hmodels model hmodel), fun hstate model hmodel => h.refuted hstate model (hmodels model hmodel)⟩

theorem models_append {model : Atom → Bool} :
    Models (clauses ++ [clause]) model ↔ Models clauses model ∧ Satisfied model clause := by
  simp only [Models, List.mem_append, List.mem_singleton, or_imp, forall_and, forall_eq]

theorem built_empty (config : Config) (random : ρ) : (empty config random).Built [] := by
  have hreason : ∀ atom, (empty config random).graph.reason? atom = none := fun atom => by
    simp [empty, ImplicationGraph.reason?, ImplicationGraph.node]
  have hclauses : (empty config random).clauses = {} := rfl
  have hmarked : (empty config random).trail.marked = [] := rfl
  refine ⟨⟨⟨⟨AtomTable.coherent_empty, fun atom placement => ?_, ?_⟩, WatchIndex.exact_empty, ?_, ?_⟩,
    ?_, ?_⟩, rfl, ⟨?_, ?_, ?_⟩, Or.inl rfl, ?_⟩
  · simp [empty, AtomTable.placement?, Trail.marked, Trail.markedLevels]
  · simp [hclauses]
  · simp [hreason]
  · simp [empty, Trail.Filled]
  · simp [empty]
  · simp [Guarded, hclauses]
  · simp [Justified, hmarked]
  · exact fun key clause hhas => absurd hhas (ClauseStore.not_has_empty key clause)
  · simp [empty]
  · exact fun _ clause hmem => absurd hmem List.not_mem_nil

/-! ## Atoms -/

structure Widened (ctx ctx' : Context ρ) : Prop where
  config : ctx'.config = ctx.config
  state : ctx'.state = ctx.state
  clauses : ctx'.clauses = ctx.clauses
  trail : ctx'.trail = ctx.trail
  watching : ∀ literal, ctx'.watches.watching literal = ctx.watches.watching literal
  node : ∀ atom, ctx'.graph.node atom = ctx.graph.node atom
  coherent : ctx'.atoms.Coherent
  count : ctx'.atoms.count = ctx.atoms.count + 1
  placement : ∀ atom, ctx'.atoms.placement? atom = ctx.atoms.placement? atom

structure AtomsExhausted (ctx : Context ρ) (fault : Fault) (ctx' : Context ρ) : Prop where
  cause : fault = .atoms .exhausted
  full : ctx.atoms.isFull
  same : ctx' = ctx

theorem AtomsExhausted.depleted {fault : Fault} (h : ctx.AtomsExhausted fault ctx') :
    Depleted fault ctx' := by
  rw [h.cause, h.same]
  exact .atoms h.full

theorem freshAtom_spec (hcoherent : ctx.atoms.Coherent) (name : String) :
    Ends (freshAtom name) ctx (fun atom ctx' => atom = ctx.atoms.count ∧ ctx.Widened ctx')
      fun fault ctx' => ctx.AtomsExhausted fault ctx' := by
  unfold freshAtom
  rw [ends_bind, ends_get]
  by_cases hfull : ctx.atoms.isFull
  · rw [if_pos hfull]
    exact ⟨rfl, hfull, rfl⟩
  obtain ⟨table, hfresh, hcoherent', hentries⟩ := hcoherent.fresh?_spec hfull name
  simp only [if_neg hfull, ends_bind, hfresh, entry, ends_pure, ends_set]
  refine ⟨trivial, rfl, rfl, rfl, rfl, fun literal => WatchIndex.watching_addAtom ..,
    ImplicationGraph.node_addAtom _, hcoherent', ?_, fun atom => ?_⟩
  · simp [AtomTable.count, hentries]
  · exact AtomTable.placement?_of_push hentries atom

section widened

variable (h : ctx.Widened ctx')

include h

theorem Widened.reason (atom : Atom) : ctx'.graph.reason? atom = ctx.graph.reason? atom :=
  congrArg ImplicationNode.reason (h.node atom)

theorem Widened.intact (hintact : ctx.Intact) : ctx'.Intact := by
  refine ⟨⟨h.coherent, fun atom placement => ?_, fun key watched hwatched => ?_⟩, ?_,
    fun atom key hkey => ?_, ?_⟩
  · rw [h.placement, h.trail]
    exact hintact.agrees.placed atom placement
  · rw [h.clauses] at hwatched
    obtain ⟨hnodup, hatoms⟩ := hintact.agrees.stored key watched hwatched
    exact ⟨hnodup, fun literal hmem => by rw [h.count]; exact Nat.lt_succ_of_lt (hatoms literal hmem)⟩
  · rw [h.clauses]
    exact hintact.exact.congr h.watching
  · rw [h.reason] at hkey
    obtain ⟨literals, hliterals, hatoms⟩ := hintact.known atom key hkey
    refine ⟨literals, by rw [h.clauses, hliterals], fun literal hmem => ?_⟩
    rw [h.count]
    exact Nat.lt_succ_of_lt (hatoms literal hmem)
  · rw [h.trail]
    exact hintact.filled

theorem Widened.waiting {waiting : List Literal} {late : Prop} (hwaiting : ctx.Waiting waiting late) :
    ctx'.Waiting waiting late := by
  refine ⟨h.intact hwaiting.intact, ?_, ?_⟩
  · rw [h.trail]
    exact hwaiting.held
  · unfold Guarded
    rw [h.clauses, h.trail]
    exact hwaiting.guarded

theorem Widened.justified (hjustified : ctx.Justified) : ctx'.Justified := by
  unfold Justified
  simp only [h.clauses, h.trail, h.reason]
  exact hjustified

theorem Widened.accounted {log : List (Source × Clause)} (haccounted : ctx.Accounted log) :
    ctx'.Accounted log := by
  refine haccounted.mono ?_ h.node h.placement (by rw [h.trail]) ?_
  · rw [h.clauses]
    exact .refl _
  · rw [h.clauses]
    exact haccounted.records

theorem Widened.sound {M : (Atom → Bool) → Prop} (hsound : ctx.Sound M) : ctx'.Sound M := by
  refine ⟨h.justified hsound.justified, ?_, ?_⟩
  · rw [h.clauses]
    exact hsound.entailed
  · rw [h.state]
    exact hsound.refuted

theorem Widened.grounded (hgrounded : ctx.Grounded clauses) : ctx'.Grounded clauses := by
  obtain ⟨hwaiting, hlevel, hsound, hkept⟩ := hgrounded
  refine ⟨?_, ?_, h.sound hsound, ?_⟩
  · rw [h.trail]
    exact h.waiting hwaiting
  · rw [h.trail]
    exact hlevel
  · rw [h.state]
    unfold Keeps
    rw [h.clauses, h.trail]
    exact hkept

theorem Widened.built (hbuilt : ctx.Built clauses) : ctx'.Built clauses :=
  (h.grounded hbuilt.grounded).built (by rw [h.state]; exact hbuilt.state)

end widened

/-! ## Clauses -/

theorem Grounded.ground (h : ctx.Grounded clauses) {level : Nat}
    (hmem : (literal, level) ∈ ctx.trail.marked) : (literal, 0) ∈ ctx.trail.marked := by
  have hle := level_le hmem
  rw [h.level] at hle
  rwa [← Nat.le_zero.1 hle]

theorem Grounded.enlarged (h : ctx.Grounded clauses) (hextends : ctx.Extends ctx')
    (hwaiting : ctx'.Waiting ctx'.trail.ground) (hlevel : ctx'.trail.level = 0)
    (hsound : ctx'.Sound (Models (clauses ++ [clause])))
    (hstate : ctx'.state = ctx.state ∨ ctx'.state = .unsatisfiable)
    (hkeeps : ctx'.state ≠ .unsatisfiable → ctx'.Keeps clause) : ctx.Enlarged clauses clause ctx' := by
  refine ⟨⟨hwaiting, hlevel, hsound, fun hnot other hmem => ?_⟩, hextends, hstate⟩
  rcases List.mem_append.1 hmem with hmem | hmem
  · refine hextends.keeps (h.kept (fun hunsat => hnot ?_) other hmem)
    rcases hstate with heq | heq
    · rw [heq, hunsat]
    · exact heq
  · rw [List.mem_singleton.1 hmem]
    exact hkeeps hnot

theorem Grounded.refute (h : ctx.Grounded clauses) (hextends : ctx.Extends ctx')
    (hwaiting : ctx'.Waiting ctx'.trail.ground) (hlevel : ctx'.trail.level = 0)
    (hsound : ctx'.Sound (Models (clauses ++ [clause])))
    (hnone : ∀ model, ¬ Models (clauses ++ [clause]) model) :
    ctx.Enlarged clauses clause (ctx'.withState .unsatisfiable) :=
  h.enlarged (hextends.trans (extends_withState _ _)) (hwaiting.withState _) hlevel
    (hsound.withState fun _ => hnone) (Or.inr rfl) fun hnot => absurd rfl hnot

section unit

variable (h : ctx.Grounded clauses)

include h

theorem Grounded.waiting_withUnit : (ctx.withUnit literal .problem).Waiting ctx.trail.ground :=
  ⟨h.waiting.intact.withUnit, h.waiting.held, h.waiting.guarded.withUnit⟩

theorem Grounded.sound_withUnit
    (hliteral : ∀ model, Models (clauses ++ [clause]) model → model literal.atom = literal.positive) :
    (ctx.withUnit literal .problem).Sound (Models (clauses ++ [clause])) :=
  (h.sound.mono fun _ hmodel => (models_append.1 hmodel).1).withUnit hliteral

theorem Grounded.recorded_unit (hmem : literal ∈ clause)
    (hliteral : ∀ model, Models (clauses ++ [clause]) model → model literal.atom = literal.positive)
    (hnone : ctx.atoms.placement? literal.atom = none)
    (hrecorded : (ctx.withUnit literal .problem).Recorded literal
      (some (.unit .problem literal)) ctx') :
    ctx.Enlarged clauses clause ctx' := by
  have hextends : ctx.Extends (ctx.withUnit literal .problem) := extends_withUnit
  have hsound := h.sound_withUnit hliteral
  have hwaiting : (ctx.withUnit literal .problem).Waiting ctx.trail.ground := h.waiting_withUnit
  have hmarked : ctx'.trail.marked = ctx.trail.marked ++ [(literal, 0)] := by
    rw [hrecorded.marked, ← h.level]
    rfl
  have hlevel : ctx'.trail.level = 0 := hrecorded.level.trans h.level
  have hground : ∀ other, other ∈ ctx'.trail.ground ↔
      other ∈ ctx.trail.ground ∨ other = literal := by
    intro other
    rw [mem_ground_iff, mem_ground_iff, hmarked]
    simp
  -- a watch that becomes false by the new value is excused as long as the value waits
  have hguarded : ctx'.Guarded fun _ other => -other ∈ ctx'.trail.ground := by
    refine hrecorded.guarded hwaiting.guarded (fun _ other hother => ?_) fun _ => ?_
    · exact (hground _).2 (Or.inl hother)
    · rw [Literal.neg_neg]
      exact (hground _).2 (Or.inr rfl)
  have hsound' : ctx'.Sound (Models (clauses ++ [clause])) := by
    refine ⟨hrecorded.justified hsound.justified hwaiting.intact.agrees ?_ hnone, ?_, ?_⟩
    · refine ⟨[literal], has_noteUnit ctx.clauses literal .problem, List.mem_cons_self, ?_⟩
      exact fun other hother hne => absurd (List.mem_singleton.1 hother) hne
    · rw [hrecorded.same.clauses]
      exact hsound.entailed
    · rw [hrecorded.same.state]
      exact hsound.refuted
  have hextends' := hextends.trans hrecorded.extends
  refine h.enlarged hextends' ⟨hrecorded.intact hwaiting.intact, fun other hother => ?_, hguarded⟩
    hlevel hsound' (Or.inl hrecorded.same.state) fun _ => Or.inr (Or.inl ⟨literal, hmem, ?_⟩)
  · rw [hlevel]
    exact mem_ground_iff.1 hother
  · rw [hmarked]
    exact List.mem_append_right _ List.mem_cons_self

end unit

def Admitted (ctx : Context ρ) : Clause → Context ρ → Prop
  | [], ctx' => ctx' = ctx.withState .unsatisfiable
  | [literal], ctx' =>
    (ctx.atoms.placement? literal.atom = none ∧
        (ctx.withUnit literal .problem).Recorded literal (some (.unit .problem literal)) ctx') ∨
      ((∃ level, (literal, level) ∈ ctx.trail.marked) ∧ ctx' = ctx.withUnit literal .problem) ∨
        ((∃ level, (-literal, level) ∈ ctx.trail.marked) ∧
          ctx' = (ctx.withUnit literal .problem).withState .unsatisfiable)
  | clause, ctx' => ∃ key, ctx.Stored clause .problem key ctx'

theorem Admitted.extends {canonical : Clause} (h : ctx.Admitted canonical ctx') :
    ctx.Extends ctx' := by
  rcases canonical with _ | ⟨literal, _ | ⟨second, rest⟩⟩
  · obtain rfl : ctx' = ctx.withState .unsatisfiable := h
    exact extends_withState ctx _
  · rcases h with ⟨_, hrecorded⟩ | ⟨_, rfl⟩ | ⟨_, rfl⟩
    · exact extends_withUnit.trans hrecorded.extends
    · exact extends_withUnit
    · exact extends_withUnit.trans (extends_withState _ _)
  · obtain ⟨key, hstored⟩ := h
    exact hstored.extends

theorem Admitted.level {canonical : Clause} (h : ctx.Admitted canonical ctx') :
    ctx'.trail.level = ctx.trail.level := by
  rcases canonical with _ | ⟨literal, _ | ⟨second, rest⟩⟩
  · obtain rfl : ctx' = ctx.withState .unsatisfiable := h
    rfl
  · rcases h with ⟨_, hrecorded⟩ | ⟨_, rfl⟩ | ⟨_, rfl⟩
    · exact hrecorded.level
    · rfl
    · rfl
  · obtain ⟨key, hstored⟩ := h
    rw [hstored.trail]

theorem admitUnit_spec (hagrees : ctx.Agrees) (hatom : literal.atom < ctx.atoms.count) :
    Ensures (do
        let key ← noteUnit literal .problem
        match (← get).valuation.status literal with
        | .unvalued => record literal (some key)
        | .holds => pure ()
        | .fails => setState .unsatisfiable : Step (Context ρ) Unit) ctx
      (fun _ ctx' => ctx.Admitted [literal] ctx') never := by
  rw [ensures_bind]
  refine ensures_of_never (noteUnit_spec literal .problem) ?_
  rintro _ _ ⟨rfl, rfl⟩
  rw [ensures_bind, ensures_get]
  rcases hstatus : (ctx.withUnit literal .problem).valuation.status literal
  · have hnone := AtomTable.valuation_eq_none.1 (Valuation.status_eq_unvalued.1 hstatus)
    refine ensures_mono (record_spec hagrees.withUnit hatom hnone ?_)
      (fun _ _ hrecorded => Or.inl ⟨hnone, hrecorded⟩) fun _ => id
    rintro _ ⟨⟩
    exact extends_withUnit.known (known_unit hatom .problem)
  · exact Or.inr (Or.inl ⟨hagrees.holds_iff.1 hstatus, rfl⟩)
  · exact Or.inr (Or.inr ⟨hagrees.fails_iff.1 hstatus, rfl⟩)

/-- The addition of a clause results in the clause as it is kept, if there is a number for it. -/
theorem addClause_admits (hintact : ctx.Intact) (hlevel : ctx.trail.level = 0)
    (hatoms : ∀ literal ∈ clause, literal.atom < ctx.atoms.count) :
    Ends (addClause clause) ctx (fun result ctx' => result = clause.canonical? ∧
      match clause.canonical? with
      | none => ctx' = ctx
      | some canonical => ctx.Admitted canonical ctx')
      fun fault ctx' => ctx.Refused .problem fault ctx' := by
  have hdecision : ctx.trail.hasDecision = false := by
    simp only [Trail.level, List.length_eq_zero_iff] at hlevel
    simp [Trail.hasDecision, hlevel]
  unfold addClause
  simp only [ends_bind, ends_get, hdecision, Bool.false_eq_true, if_false]
  rcases hcanonical : clause.canonical? with _ | canonical
  · exact ⟨rfl, rfl⟩
  · obtain ⟨hnodup, hmem⟩ := Clause.canonical?_eq_some hcanonical
    have hatoms' : ∀ literal ∈ canonical, literal.atom < ctx.atoms.count :=
      fun literal hliteral => hatoms literal ((hmem literal).1 hliteral)
    rcases canonical with _ | ⟨first, _ | ⟨second, rest⟩⟩
    · exact ⟨rfl, rfl⟩
    · have hunit := admitUnit_spec hintact.agrees (hatoms' first List.mem_cons_self)
      have hends : Ends _ ctx _ fun fault ctx' => ctx.Refused .problem fault ctx' :=
        ends_of_never hunit
      simp only [ends_bind, ends_get] at hends ⊢
      refine ends_mono hends ?_ fun _ _ => id
      intro key ctx'
      -- each way to deal with the unit ends with the same result
      cases ctx'.valuation.status first <;>
        simp only [ends_bind, ends_pure, true_and, imp_self]
    · have hlong := storeClause_spec hintact.agrees hintact.exact hnodup hatoms' (by simp) .problem
      simp only [ends_bind, ends_discard, ends_pure, true_and]
      exact ends_mono hlong (fun key _ hstored => ⟨key, hstored⟩) fun _ _ => id

theorem Stored.keeps {canonical : Clause} {source : Source} {key : ClauseKey}
    (h : ctx.Stored canonical source key ctx') (hsubset : canonical ⊆ clause) : ctx'.Keeps clause := by
  obtain ⟨clause', hhas, hperm⟩ := h.has
  obtain ⟨watched, _, hget⟩ := h.get?
  cases key with
  | unit source literal => exact absurd (hget (.unit source literal)) (by simp [ClauseStore.get?])
  | stored source index =>
    exact Or.inr (Or.inr ⟨source, index, clause', hhas, List.Subset.trans hperm.subset hsubset⟩)

theorem Admitted.keeps {canonical : Clause} (h : ctx.Admitted canonical ctx')
    (hlevel : ctx.trail.level = 0) (hsubset : canonical ⊆ clause)
    (hstate : ctx'.state ≠ .unsatisfiable) : ctx'.Keeps clause := by
  rcases canonical with _ | ⟨literal, _ | ⟨second, rest⟩⟩
  · obtain rfl : ctx' = ctx.withState .unsatisfiable := h
    exact absurd rfl hstate
  · have hmem : literal ∈ clause := hsubset List.mem_cons_self
    rcases h with ⟨_, hrecorded⟩ | ⟨⟨level, hmark⟩, rfl⟩ | ⟨_, rfl⟩
    · refine Or.inr (Or.inl ⟨literal, hmem, ?_⟩)
      rw [hrecorded.marked, ← hlevel]
      exact List.mem_append_right _ List.mem_cons_self
    · have hground : level = 0 := Nat.le_zero.1 (hlevel ▸ level_le hmark)
      subst hground
      exact Or.inr (Or.inl ⟨literal, hmem, hmark⟩)
    · exact absurd rfl hstate
  · obtain ⟨key, hstored⟩ := h
    exact hstored.keeps hsubset

theorem Admitted.state {canonical : Clause} (h : ctx.Admitted canonical ctx') :
    ctx'.state = ctx.state ∨ ctx'.state = .unsatisfiable := by
  rcases canonical with _ | ⟨literal, _ | ⟨second, rest⟩⟩
  · obtain rfl : ctx' = ctx.withState .unsatisfiable := h
    exact Or.inr rfl
  · rcases h with ⟨_, hrecorded⟩ | ⟨_, rfl⟩ | ⟨_, rfl⟩
    · exact Or.inl hrecorded.same.state
    · exact Or.inl rfl
    · exact Or.inr rfl
  · obtain ⟨key, hstored⟩ := h
    exact Or.inl hstored.state

theorem Grounded.stored (h : ctx.Grounded clauses) {canonical : Clause} {key : ClauseKey}
    (hstored : ctx.Stored canonical .problem key ctx')
    (hclause : ∀ other, other ∈ canonical ↔ other ∈ clause) : ctx.Enlarged clauses clause ctx' := by
  have hpending : ∀ literal level, (-literal, level) ∈ ctx.trail.marked →
      -literal ∈ ctx.trail.ground := fun literal level hmark => mem_ground_iff.2 (h.ground hmark)
  have hwaiting : ctx'.Waiting ctx'.trail.ground := by
    refine ⟨hstored.intact h.waiting.intact, ?_, ?_⟩
    · rw [hstored.trail]
      exact h.waiting.held
    · rw [hstored.trail]
      exact hstored.guarded_of_pending h.waiting.guarded fun watched _ =>
        ⟨fun i hi => hpending _ i hi, fun i hi => hpending _ i hi⟩
  refine h.enlarged hstored.extends hwaiting ?_ ?_ (Or.inl hstored.state) fun _ =>
    hstored.keeps fun other => (hclause other).1
  · rw [hstored.trail]
    exact h.level
  · refine hstored.sound (h.sound.mono fun model hmodel => (models_append.1 hmodel).1) ?_
    intro model hmodel
    exact (models_append.1 hmodel).2.subset fun other => (hclause other).2

/-- A unit clause is noted, and its literal is true without a decision from then on. -/
theorem Grounded.noted (h : ctx.Grounded clauses)
    (hclause : ∀ other, other ∈ [literal] ↔ other ∈ clause)
    (hadmitted : ctx.Admitted [literal] ctx') : ctx.Enlarged clauses clause ctx' := by
  have hmem : literal ∈ clause := (hclause literal).1 List.mem_cons_self
  have hliteral : ∀ model, Models (clauses ++ [clause]) model →
      model literal.atom = literal.positive := fun model hmodel =>
    satisfied_singleton.1 ((models_append.1 hmodel).2.subset fun other => (hclause other).2)
  have hextends : ctx.Extends (ctx.withUnit literal .problem) := extends_withUnit
  have hsound := h.sound_withUnit hliteral
  have hwaiting : (ctx.withUnit literal .problem).Waiting ctx.trail.ground := h.waiting_withUnit
  rcases hadmitted with ⟨hnone, hrecorded⟩ | ⟨⟨level, hmark⟩, rfl⟩ | ⟨⟨level, hmark⟩, rfl⟩
  · exact h.recorded_unit hmem hliteral hnone hrecorded
  · exact h.enlarged hextends hwaiting h.level hsound (Or.inl rfl) fun _ =>
      Or.inr (Or.inl ⟨literal, hmem, h.ground hmark⟩)
  · refine h.refute hextends hwaiting h.level hsound fun model hmodel => ?_
    have hfalse := hsound.ground hmodel (-literal) (h.ground hmark)
    rw [Literal.atom_neg, Literal.positive_neg, hliteral model hmodel] at hfalse
    exact absurd hfalse (by simp)

/-- A clause can be added as long as no decision has been made and there is a number for it. -/
theorem Grounded.addClause_spec (h : ctx.Grounded clauses)
    (hatoms : ∀ literal ∈ clause, literal.atom < ctx.atoms.count) :
    Ends (addClause clause) ctx (fun _ ctx' => ctx.Enlarged clauses clause ctx')
      fun fault ctx' => ctx.Refused .problem fault ctx' := by
  have hmono : ctx.Sound (Models (clauses ++ [clause])) :=
    h.sound.mono fun model hmodel => (models_append.1 hmodel).1
  refine ends_mono (addClause_admits h.waiting.intact h.level hatoms) ?_ fun _ _ => id
  rintro _ ctx' ⟨_, hadmitted⟩
  rcases hcanonical : clause.canonical? with _ | canonical
  · obtain ⟨literal, hpos, hneg⟩ := Clause.canonical?_eq_none hcanonical
    rw [hcanonical] at hadmitted
    subst hadmitted
    exact h.enlarged (.refl _) h.waiting h.level hmono (Or.inl rfl) fun _ =>
      Or.inl ⟨literal, hpos, hneg⟩
  · obtain ⟨_, hmem⟩ := Clause.canonical?_eq_some hcanonical
    rw [hcanonical] at hadmitted
    rcases canonical with _ | ⟨first, _ | ⟨second, rest⟩⟩
    · -- a clause without literals has no model
      obtain rfl : ctx' = ctx.withState .unsatisfiable := hadmitted
      refine h.refute (.refl ctx) h.waiting h.level hmono fun model hmodel => ?_
      obtain ⟨literal, hliteral, _⟩ := (models_append.1 hmodel).2
      exact List.not_mem_nil ((hmem literal).2 hliteral)
    · exact h.noted hmem hadmitted
    · obtain ⟨key, hstored⟩ := hadmitted
      exact h.stored hstored hmem

theorem Admitted.size_le {canonical : Clause} (h : ctx.Admitted canonical ctx') :
    (ctx'.clauses.shelf .problem).stored.size ≤ (ctx.clauses.shelf .problem).stored.size + 1 := by
  have hunit (literal : Literal) :
      ((ctx.withUnit literal .problem).clauses.shelf .problem).stored =
        (ctx.clauses.shelf .problem).stored := rfl
  rcases canonical with _ | ⟨literal, _ | ⟨second, rest⟩⟩
  · obtain rfl : ctx' = ctx.withState .unsatisfiable := h
    exact Nat.le_succ _
  · rcases h with ⟨_, hrecorded⟩ | ⟨_, rfl⟩ | ⟨_, rfl⟩
    · rw [hrecorded.same.clauses, hunit]
      exact Nat.le_succ _
    · exact Nat.le_succ _
    · exact Nat.le_succ _
  · obtain ⟨key, hstored⟩ := h
    obtain ⟨watched, _, hclauses⟩ := hstored.shelved
    rw [hclauses, ClauseStore.shelf_setShelf, if_pos rfl]
    exact Nat.le_of_eq (Array.size_push watched)

theorem addClause_spec (h : ctx.Built clauses)
    (hatoms : ∀ literal ∈ clause, literal.atom < ctx.atoms.count) :
    Ends (addClause clause) ctx (fun _ ctx' => ctx'.Built (clauses ++ [clause]) ∧ ctx.Extends ctx' ∧
      (ctx'.clauses.shelf .problem).stored.size ≤ (ctx.clauses.shelf .problem).stored.size + 1)
      fun fault ctx' => ctx.Refused .problem fault ctx' := by
  have hadmits := addClause_admits h.waiting.intact h.level hatoms
  have hresult : Ensures (addClause clause) ctx (fun _ ctx' =>
      (ctx'.clauses.shelf .problem).stored.size ≤ (ctx.clauses.shelf .problem).stored.size + 1)
      anyFault := by
    refine ensures_of_ends (ends_mono hadmits ?_ fun _ _ => id) fun _ _ _ => trivial
    rintro _ ctx' ⟨_, hadmitted⟩
    split at hadmitted
    · rw [hadmitted]
      exact Nat.le_succ _
    · exact hadmitted.size_le
  refine ends_mono (ends_and hresult (h.grounded.addClause_spec hatoms)) ?_ fun _ _ => And.right
  rintro _ ctx' ⟨hsize, henlarged⟩
  refine ⟨henlarged.grounded.built ?_, henlarged.extension, hsize⟩
  rcases henlarged.state with heq | heq
  · rw [heq]
    exact h.state
  · exact Or.inr heq

/-! ## Whole problems -/

/-- The parts of a problem are added, unless there are more of them than numbers. -/
theorem addParts_spec (parts : List Part) (h : ctx.Built clauses)
    (hparts : Part.Ordered ctx.atoms.count parts) :
    Ends (addParts parts) ctx (fun _ ctx' => ctx'.Built (clauses ++ Part.clauses parts) ∧
      ctx'.config = ctx.config ∧ ctx'.atoms.count = ctx.atoms.count + Part.atomCount parts)
      fun fault ctx' => Depleted fault ctx' ∧
        (AtomTable.greatestAtom + 1 < ctx.atoms.count + Part.atomCount parts ∨ halfWordCount <
          (ctx.clauses.shelf .problem).stored.size + (Part.clauses parts).length) := by
  -- by induction on the parts, each added to what the ones before it built
  induction parts generalizing ctx clauses with
  | nil => exact ⟨by simpa [Part.clauses] using h, rfl, rfl⟩
  | cons part rest ih =>
    unfold addParts
    rw [ends_forM_cons]
    cases part with
    | atom name =>
      rw [addPart, ends_discard, Part.atomCount_atom, Part.clauses_atom]
      refine ends_mono (freshAtom_spec h.waiting.intact.agrees.coherent name) ?_ ?_
      · rintro _ ctx₁ ⟨_, hwidened⟩
        have hrest : Part.Ordered ctx₁.atoms.count rest := by
          rw [hwidened.count]
          exact hparts
        refine ends_mono (ih (hwidened.built h) hrest) ?_ ?_
        · rintro _ ctx₂ ⟨hbuilt, hconfig, hcount⟩
          refine ⟨hbuilt, hconfig.trans hwidened.config, ?_⟩
          rw [hcount, hwidened.count]
          omega
        · rintro fault _ ⟨hfault, hmore⟩
          rw [hwidened.count, hwidened.clauses] at hmore
          exact ⟨hfault, by omega⟩
      · intro fault ctx₁ hexhausted
        have hlt := AtomTable.isFull_iff.1 hexhausted.full
        exact ⟨hexhausted.depleted, by omega⟩
    | clause literals =>
      rw [addPart, ends_discard, Part.atomCount_clause, Part.clauses_clause, List.length_cons]
      refine ends_mono (addClause_spec h hparts.1) ?_ ?_
      · rintro _ ctx₁ ⟨hbuilt, hextends, hsize⟩
        have hrest : Part.Ordered ctx₁.atoms.count rest := by
          rw [hextends.count]
          exact hparts.2
        refine ends_mono (ih hbuilt hrest) ?_ ?_
        · rintro _ ctx₂ ⟨hbuilt', hconfig, hcount⟩
          refine ⟨?_, hconfig.trans hextends.config, ?_⟩
          · rw [List.append_assoc] at hbuilt'
            exact hbuilt'
          · rw [hcount, hextends.count]
        · rintro fault _ ⟨hfault, hmore⟩
          rw [hextends.count] at hmore
          exact ⟨hfault, by omega⟩
      · rintro fault ctx₁ ⟨hexhausted, hsimilar⟩
        have hle := ClauseStore.isFull_iff.1 hexhausted.full
        rw [hsimilar.clauses] at hle
        exact ⟨hexhausted.depleted, by omega⟩

end Satisfiability.Context
