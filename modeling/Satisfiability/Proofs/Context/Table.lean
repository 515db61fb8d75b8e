import Satisfiability.Problem
import Satisfiability.Proofs.Search.AtomTable
import Satisfiability.Proofs.Step

/-!
# The table of atoms stays coherent

Each operation of a context leaves the table of atoms coherent, whatever the rest of the context is
and even if it ends in a fault (`KeepsTable`): an operation of the table that has a result has a
coherent one, and where it has none nothing is changed. So the table is coherent in every context
that calls lead to (`Called.coherent`).
-/

namespace Satisfiability.Search.AtomTable

variable {table table' : AtomTable Float} {atom : Atom} {literal : Literal} {level position : Nat}

theorem lt_count_of_place? {placement : Option Placement}
    (h : table.place? atom placement = some table') : atom < table.count := by
  obtain ⟨entry, hentry, -⟩ := Option.map_eq_some_iff.1 h
  exact (Array.getElem?_eq_some_iff.1 hentry).1

theorem Coherent.of_setValue? (hcoherent : table.Coherent)
    (h : table.setValue? literal level position = some table') : table'.Coherent := by
  obtain ⟨table'', hset, hcoherent', -⟩ :=
    hcoherent.setValue?_spec (lt_count_of_place? h) level position
  rw [h] at hset
  exact Option.some.inj hset ▸ hcoherent'

theorem Coherent.of_dropValue? (hcoherent : table.Coherent)
    (h : table.dropValue? atom = some table') : table'.Coherent := by
  obtain ⟨placed, hplace, -⟩ := Option.bind_eq_some_iff.1 h
  obtain ⟨table'', hdrop, hcoherent', -⟩ := hcoherent.dropValue?_spec (lt_count_of_place? hplace)
  rw [h] at hdrop
  exact Option.some.inj hdrop ▸ hcoherent'

theorem Coherent.of_bump? (hcoherent : table.Coherent) {amount : Float}
    (h : table.bump? amount atom = some table') : table'.Coherent := by
  obtain ⟨activities, hmodify, -⟩ := Option.map_eq_some_iff.1 h
  obtain ⟨value, hvalue, -⟩ := Option.bind_eq_some_iff.1 hmodify
  have hatom : atom < table.count :=
    Nat.lt_of_lt_of_eq (Array.getElem?_eq_some_iff.1 hvalue).1 hcoherent.sizes
  obtain ⟨table'', hbump, hcoherent', -⟩ := hcoherent.bump?_spec amount hatom
  rw [h] at hbump
  exact Option.some.inj hbump ▸ hcoherent'

theorem Coherent.of_fresh? (hcoherent : table.Coherent) {name : String}
    (h : table.fresh? name = some (atom, table')) : table'.Coherent := by
  obtain ⟨table'', hfresh, hcoherent', -⟩ := hcoherent.fresh?_spec (room_of_fresh? h) name
  rw [h] at hfresh
  cases hfresh
  exact hcoherent'

theorem Coherent.of_mostActive? (hcoherent : table.Coherent) {found : Option Atom}
    (h : table.mostActive? = some (found, table')) : table'.Coherent := by
  obtain ⟨found', table'', hmost, hcoherent', -⟩ := hcoherent.mostActive?_spec
  rw [h] at hmost
  cases hmost
  exact hcoherent'

end Satisfiability.Search.AtomTable

namespace Satisfiability.Context

open Search Step

variable {ρ α β : Type}

/-- From a context with a coherent table the operation leaves one, even if it ends in a fault. -/
def KeepsTable (operation : Step (Context ρ) α) : Prop :=
  ∀ ctx, ctx.atoms.Coherent →
    Ends operation ctx (fun _ ctx' => ctx'.atoms.Coherent) fun _ ctx' => ctx'.atoms.Coherent

/-! ## Ways to build an operation -/

section rules

variable {operation : Step (Context ρ) α} {next : α → Step (Context ρ) β}

theorem keepsTable_pure (a : α) : KeepsTable (pure a : Step (Context ρ) α) :=
  fun _ hcoherent => hcoherent

theorem keepsTable_throw (fault : Fault) : KeepsTable (throw fault : Step (Context ρ) α) :=
  fun _ hcoherent => hcoherent

theorem keepsTable_bind (h : KeepsTable operation) (hnext : ∀ a, KeepsTable (next a)) :
    KeepsTable (operation >>= next) := fun ctx hcoherent =>
  ends_bind.2 (ends_mono (h ctx hcoherent) (fun a ctx' hcoherent' => hnext a ctx' hcoherent')
    fun _ _ => id)

theorem keepsTable_discard (h : KeepsTable operation) : KeepsTable (discard operation) :=
  fun ctx hcoherent => ends_discard.2 (h ctx hcoherent)

theorem keepsTable_get {next : Context ρ → Step (Context ρ) β}
    (h : ∀ ctx : Context ρ, ctx.atoms.Coherent → KeepsTable (next ctx)) :
    KeepsTable (get >>= next) := fun ctx hcoherent =>
  ends_bind.2 (h ctx hcoherent ctx hcoherent)

theorem keepsTable_set {ctx : Context ρ} (h : ctx.atoms.Coherent) :
    KeepsTable (set ctx : Step (Context ρ) PUnit) := fun _ _ => h

theorem keepsTable_modify {f : Context ρ → Context ρ}
    (h : ∀ ctx : Context ρ, ctx.atoms.Coherent → (f ctx).atoms.Coherent) :
    KeepsTable (modify f : Step (Context ρ) PUnit) := h

theorem keepsTable_modifyGet {f : Context ρ → α × Context ρ}
    (h : ∀ ctx : Context ρ, ctx.atoms.Coherent → (f ctx).2.atoms.Coherent) :
    KeepsTable (modifyGet f : Step (Context ρ) α) := h

theorem keepsTable_entry {found : Option α} (h : ∀ a, found = some a → KeepsTable (next a)) :
    KeepsTable (entry found >>= next) := by
  cases found with
  | none => exact fun _ hcoherent => hcoherent
  | some a => exact h a rfl

theorem keepsTable_forM {f : β → Step (Context ρ) PUnit} (items : List β)
    (h : ∀ item, KeepsTable (f item)) : KeepsTable (items.forM f) := by
  induction items with
  | nil => exact keepsTable_pure _
  | cons item rest ih => exact keepsTable_bind (h item) fun _ => ih

theorem keepsTable_mapM {f : β → Step (Context ρ) α} (items : List β)
    (h : ∀ item, KeepsTable (f item)) : KeepsTable (items.mapM f) := by
  induction items with
  | nil => exact keepsTable_pure _
  | cons item rest ih =>
    rw [List.mapM_cons]
    exact keepsTable_bind (h item) fun _ => keepsTable_bind ih fun _ => keepsTable_pure _

theorem keepsTable_foldlM {f : α → β → Step (Context ρ) α} (items : List β) (start : α)
    (h : ∀ a item, KeepsTable (f a item)) : KeepsTable (items.foldlM f start) := by
  induction items generalizing start with
  | nil => exact keepsTable_pure _
  | cons item rest ih =>
    rw [List.foldlM_cons]
    exact keepsTable_bind (h start item) ih

end rules

/-! ## Building -/

theorem keepsTable_bump (atom : Atom) : KeepsTable (bump atom : Step (Context ρ) Unit) :=
  keepsTable_get fun _ hcoherent => keepsTable_entry fun _ h => keepsTable_set (hcoherent.of_bump? h)

theorem keepsTable_clear (literal : Literal) : KeepsTable (clear literal : Step (Context ρ) Unit) :=
  keepsTable_get fun _ hcoherent =>
    keepsTable_entry fun _ h => keepsTable_set (hcoherent.of_dropValue? h)

theorem keepsTable_record (literal : Literal) (reason : Option ClauseKey) :
    KeepsTable (record literal reason : Step (Context ρ) Unit) := by
  refine keepsTable_get fun ctx hcoherent => ?_
  have hplace (clauseAtoms : List Atom) : KeepsTable (do
      let atoms ← entry (ctx.atoms.setValue? literal ctx.trail.level ctx.trail.size)
      set { ctx with
        atoms
        trail := ctx.trail.push literal
        graph := ctx.graph.note literal.atom reason clauseAtoms } : Step (Context ρ) Unit) :=
    keepsTable_entry fun _ h => keepsTable_set (hcoherent.of_setValue? h)
  split
  · split
    · exact keepsTable_bind (keepsTable_pure _) hplace
    · exact keepsTable_bind (keepsTable_throw _) hplace
  · exact keepsTable_bind (keepsTable_pure _) hplace

theorem keepsTable_openLevel : KeepsTable (openLevel : Step (Context ρ) Unit) :=
  keepsTable_modify fun _ => id

theorem keepsTable_setState (state : SearchState) :
    KeepsTable (setState state : Step (Context ρ) Unit) :=
  keepsTable_modify fun _ => id

theorem keepsTable_freshAtom (name : String) :
    KeepsTable (freshAtom name : Step (Context ρ) Atom) := by
  refine keepsTable_get fun ctx hcoherent => ?_
  split
  · exact keepsTable_throw _
  · refine keepsTable_entry fun result h => ?_
    exact keepsTable_bind (keepsTable_set (hcoherent.of_fresh? h)) fun _ => keepsTable_pure _

theorem keepsTable_atomNamed (name : String) :
    KeepsTable (atomNamed name : Step (Context ρ) Atom) := by
  refine keepsTable_get fun ctx _ => ?_
  split
  · exact keepsTable_pure _
  · exact keepsTable_freshAtom name

theorem keepsTable_freshLiterals (count : Nat) :
    KeepsTable (freshLiterals count : Step (Context ρ) (List Literal)) :=
  keepsTable_mapM _ fun _ => keepsTable_get fun _ _ =>
    keepsTable_bind (keepsTable_freshAtom _) fun _ => keepsTable_pure _

theorem keepsTable_readClause (text : String) :
    KeepsTable (readClause text : Step (Context ρ) Clause) := by
  refine keepsTable_mapM _ fun word => ?_
  unfold readLiteral
  split
  split
  · exact keepsTable_bind (keepsTable_throw _) fun _ =>
      keepsTable_bind (keepsTable_atomNamed _) fun _ => keepsTable_pure _
  · exact keepsTable_bind (keepsTable_atomNamed _) fun _ => keepsTable_pure _

theorem keepsTable_storeClause (clause : Clause) (source : Source) :
    KeepsTable (storeClause clause source : Step (Context ρ) ClauseKey) := by
  unfold storeClause
  split
  · exact keepsTable_throw _
  · refine keepsTable_get fun ctx _ => ?_
    refine keepsTable_bind (keepsTable_forM _ keepsTable_bump) fun _ => ?_
    refine keepsTable_get fun ctx' hcoherent' => ?_
    split
    · exact keepsTable_bind (keepsTable_set hcoherent') fun _ => keepsTable_pure _
    · exact keepsTable_throw _
    · exact keepsTable_throw _

theorem keepsTable_noteUnit (literal : Literal) (source : Source) :
    KeepsTable (noteUnit literal source : Step (Context ρ) ClauseKey) :=
  keepsTable_modifyGet fun _ => id

theorem keepsTable_addClause (clause : Clause) :
    KeepsTable (addClause clause : Step (Context ρ) (Option Clause)) := by
  refine keepsTable_get fun ctx _ => ?_
  dsimp only
  split
  · exact keepsTable_throw _
  · rcases clause.canonical? with _ | _ | ⟨first, _ | ⟨second, rest⟩⟩
    · exact keepsTable_pure _
    · exact keepsTable_bind (keepsTable_setState _) fun _ => keepsTable_pure _
    · refine keepsTable_bind (keepsTable_noteUnit _ _) fun key => keepsTable_get fun ctx' _ => ?_
      cases ctx'.valuation.status first with
      | unvalued => exact keepsTable_bind (keepsTable_record _ _) fun _ => keepsTable_pure _
      | holds => exact keepsTable_pure _
      | fails => exact keepsTable_bind (keepsTable_setState _) fun _ => keepsTable_pure _
    · exact keepsTable_bind (keepsTable_discard (keepsTable_storeClause _ _)) fun _ =>
        keepsTable_pure _

/-! ## Reading -/

theorem keepsTable_endClause (reading : FileReading) :
    KeepsTable (endClause reading : Step (Context ρ) FileReading) :=
  keepsTable_bind (keepsTable_discard (keepsTable_addClause _)) fun _ => keepsTable_pure _

theorem keepsTable_readItem (line : Nat) (reading : FileReading) (word : List Char) :
    KeepsTable (readItem line reading word : Step (Context ρ) FileReading) := by
  unfold readItem
  split
  · exact keepsTable_throw _
  · split
    · exact keepsTable_endClause reading
    · exact keepsTable_bind (keepsTable_atomNamed _) fun _ => keepsTable_pure _

theorem keepsTable_readLines (reading : FileReading) (number : Nat) (lines : List (Option String)) :
    KeepsTable (readLines reading number lines : Step (Context ρ) FileReading) := by
  induction lines generalizing reading number with
  | nil => exact keepsTable_pure _
  | cons line rest ih =>
    cases line with
    | none => exact keepsTable_throw _
    | some line =>
      unfold readLines
      dsimp only
      split
      · exact ih _ _
      · exact ih _ _
      · exact keepsTable_pure _
      · split
        · exact keepsTable_throw _
        · exact ih _ _
      · exact keepsTable_bind (keepsTable_foldlM _ _ (keepsTable_readItem number)) fun _ => ih _ _

theorem keepsTable_readClauseFile (bytes : ByteArray) :
    KeepsTable (readClauseFile bytes : Step (Context ρ) FileCounts) := by
  refine keepsTable_bind (keepsTable_readLines _ _ _) fun reading => ?_
  split
  · exact keepsTable_pure _
  · exact keepsTable_bind (keepsTable_endClause _) fun _ => keepsTable_pure _

theorem keepsTable_addNamedClause (clause : List Propositional.NamedLiteral) :
    KeepsTable (addNamedClause clause : Step (Context ρ) Unit) := by
  refine keepsTable_bind (keepsTable_mapM _ fun named => ?_) fun _ =>
    keepsTable_discard (keepsTable_addClause _)
  exact keepsTable_bind (keepsTable_atomNamed _) fun _ => keepsTable_pure _

theorem keepsTable_load (names : List String) (cnf : Propositional.Cnf) :
    KeepsTable (load names cnf : Step (Context ρ) Unit) := by
  refine keepsTable_bind (keepsTable_forM _ fun _ => keepsTable_discard (keepsTable_atomNamed _))
    fun _ => ?_
  cases cnf with
  | always => exact keepsTable_pure _
  | never => exact keepsTable_discard (keepsTable_addClause _)
  | clauses kept => exact keepsTable_forM _ keepsTable_addNamedClause

/-! ## Searching -/

theorem keepsTable_restoreWatches (literal : Literal) (keys : List ClauseKey) :
    KeepsTable (restoreWatches literal keys : Step (Context ρ) Unit) :=
  keepsTable_modify fun _ => id

theorem keepsTable_examine (broken : Literal) (kept : List ClauseKey) (implied : List Literal)
    (taken : List ClauseKey) :
    KeepsTable (examine broken kept implied taken : Step (Context ρ) Propagation) := by
  induction taken generalizing kept implied with
  | nil => exact keepsTable_bind (keepsTable_restoreWatches _ _) fun _ => keepsTable_pure _
  | cons key taken ih =>
    refine keepsTable_get fun ctx hcoherent => ?_
    dsimp only
    split
    · exact keepsTable_bind (keepsTable_restoreWatches _ _) fun _ => keepsTable_throw _
    · refine keepsTable_entry fun result _ => ?_
      refine keepsTable_bind (keepsTable_set hcoherent) fun _ => ?_
      split
      · exact ih _ _
      · exact keepsTable_bind (keepsTable_modify fun _ => id) fun _ => ih _ _
      · exact keepsTable_bind (keepsTable_record _ _) fun _ => ih _ _
      · exact keepsTable_bind (keepsTable_restoreWatches _ _) fun _ => keepsTable_pure _

theorem keepsTable_propagateQueue (budget : Nat) (queue : List Literal) :
    KeepsTable (propagateQueue budget queue : Step (Context ρ) (Option ClauseKey)) := by
  induction budget generalizing queue with
  | zero =>
    cases queue with
    | nil => exact keepsTable_pure _
    | cons literal queue => exact keepsTable_throw _
  | succ budget ih =>
    cases queue with
    | nil => exact keepsTable_pure _
    | cons literal queue =>
      refine keepsTable_bind (keepsTable_modifyGet fun _ => id) fun taken => ?_
      refine keepsTable_bind (keepsTable_examine _ _ _ _) fun propagation => ?_
      cases propagation with
      | implied literals => exact ih _
      | conflict key => exact keepsTable_pure _

theorem keepsTable_propagate (literal : Literal) :
    KeepsTable (propagate literal : Step (Context ρ) (Option ClauseKey)) :=
  keepsTable_get fun _ _ => keepsTable_propagateQueue _ _

theorem keepsTable_backjump (target : Nat) :
    KeepsTable (backjump target : Step (Context ρ) Unit) := by
  refine keepsTable_get fun ctx _ => ?_
  generalize ctx.trail.level - target = count
  induction count with
  | zero => exact keepsTable_pure _
  | succ count ih =>
    refine keepsTable_bind ?_ fun _ => ih
    exact keepsTable_bind (keepsTable_modifyGet fun _ => id) fun literals =>
      keepsTable_forM literals keepsTable_clear

theorem keepsTable_backtrack (clause : Clause) (asserted : Literal) (level : Nat) :
    KeepsTable (backtrack clause asserted level : Step (Context ρ) ClauseKey) := by
  have hforce (key : ClauseKey) : KeepsTable (do
      modify fun ctx => { ctx with atoms := ctx.atoms.decay ctx.config.activityDecay.value }
      record asserted (some key)
      return key : Step (Context ρ) ClauseKey) :=
    keepsTable_bind (keepsTable_modify fun _ hcoherent => (hcoherent.decay _).1) fun _ =>
      keepsTable_bind (keepsTable_record _ _) fun _ => keepsTable_pure _
  rcases clause with _ | ⟨first, _ | ⟨second, rest⟩⟩
  · exact keepsTable_bind (keepsTable_throw _) hforce
  · exact keepsTable_bind (keepsTable_backjump 0) fun _ =>
      keepsTable_bind (keepsTable_bump _) fun _ => keepsTable_bind (keepsTable_noteUnit _ _) hforce
  · exact keepsTable_bind (keepsTable_backjump level) fun _ =>
      keepsTable_bind (keepsTable_storeClause _ _) hforce

theorem keepsTable_propagateGround (literals : List Literal) :
    KeepsTable (propagateGround literals : Step (Context ρ) Bool) := by
  induction literals with
  | nil => exact keepsTable_pure _
  | cons literal rest ih =>
    refine keepsTable_bind (keepsTable_propagate literal) fun conflict => ?_
    cases conflict with
    | none => exact ih
    | some key => exact keepsTable_bind (keepsTable_setState _) fun _ => keepsTable_pure _

theorem keepsTable_start : KeepsTable (start : Step (Context ρ) Bool) := by
  refine keepsTable_get fun ctx _ => ?_
  split
  · exact keepsTable_pure _
  · exact keepsTable_bind (keepsTable_setState _) fun _ =>
      keepsTable_get fun _ _ => keepsTable_propagateGround _

theorem keepsTable_learn (key : ClauseKey) :
    KeepsTable (learn key : Step (Context ρ) (Option (Literal × Nat))) := by
  refine keepsTable_bind (keepsTable_modify fun _ => id) fun _ => keepsTable_get fun ctx _ => ?_
  split
  · exact keepsTable_throw _
  · exact keepsTable_bind (keepsTable_setState _) fun _ => keepsTable_pure _
  · exact keepsTable_bind (keepsTable_discard (keepsTable_backtrack _ _ _)) fun _ =>
      keepsTable_get fun _ _ => keepsTable_pure _

theorem keepsTable_propagateLearningWithin (jumps : List Nat) (budget : Nat) (literal : Literal) :
    KeepsTable (propagateLearningWithin jumps budget literal : Step (Context ρ) Learning) := by
  induction budget generalizing jumps literal with
  | zero => exact keepsTable_throw _
  | succ budget ih =>
    refine keepsTable_bind (keepsTable_propagate literal) fun conflict => ?_
    cases conflict with
    | none => exact keepsTable_pure _
    | some key =>
      refine keepsTable_bind (keepsTable_learn key) fun learnt => ?_
      cases learnt with
      | none => exact keepsTable_pure _
      | some forced => exact ih _ _

theorem keepsTable_propagateLearning (literal : Literal) (jumps : List Nat) :
    KeepsTable (propagateLearning literal jumps : Step (Context ρ) Learning) :=
  keepsTable_get fun _ _ => keepsTable_propagateLearningWithin _ _ _

theorem keepsTable_resolveConflict (clause : Clause) :
    KeepsTable (resolveConflict clause : Step (Context ρ) Learning) := by
  unfold resolveConflict
  split
  · rename_i canonical _
    refine keepsTable_get fun ctx _ => ?_
    split
    · extract_lets top learning
      -- both ways to the stored clause end in the same steps
      have hlearning (jumps : List Nat) : KeepsTable (learning jumps) := by
        refine keepsTable_bind (keepsTable_storeClause _ _) fun key => ?_
        refine keepsTable_bind (keepsTable_learn key) fun learnt => ?_
        cases learnt with
        | none => exact keepsTable_pure _
        | some forced => exact keepsTable_propagateLearning _ _
      split
      · exact keepsTable_bind (keepsTable_setState _) fun _ => keepsTable_pure _
      · split
        · refine keepsTable_bind (keepsTable_modify fun _ => id) fun _ => ?_
          split
          · exact keepsTable_throw _
          · exact keepsTable_bind (keepsTable_discard (keepsTable_backtrack _ _ _)) fun _ =>
              keepsTable_get fun _ _ => keepsTable_propagateLearning _ _
        · split
          · exact keepsTable_bind (keepsTable_backjump _) fun _ =>
              keepsTable_bind (keepsTable_pure _) hlearning
          · exact keepsTable_bind (keepsTable_pure _) hlearning
    · exact keepsTable_throw _
  · exact keepsTable_throw _

section search

variable [RandomSource ρ]

theorem keepsTable_decision : KeepsTable (decision : Step (Context ρ) (Option Literal)) := by
  have hdraws : KeepsTable (drawsRandomly : Step (Context ρ) Bool) := by
    refine keepsTable_get fun ctx hcoherent => ?_
    extract_lets bias
    split
    · exact keepsTable_bind (keepsTable_set hcoherent) fun _ => keepsTable_pure _
    · exact keepsTable_pure _
  have hchoose : KeepsTable (chooseAtom : Step (Context ρ) (Option Atom)) := by
    refine keepsTable_bind hdraws fun randomly => ?_
    split
    · exact keepsTable_modifyGet fun _ => id
    · refine keepsTable_get fun ctx hcoherent => keepsTable_entry fun result h => ?_
      exact keepsTable_bind (keepsTable_set (hcoherent.of_mostActive? h)) fun _ => keepsTable_pure _
  refine keepsTable_bind hchoose fun found => ?_
  cases found with
  | none => exact keepsTable_pure _
  | some atom => exact keepsTable_modifyGet fun _ => id

theorem keepsTable_round : KeepsTable (round : Step (Context ρ) (Option Report)) := by
  refine keepsTable_bind (keepsTable_modify fun _ => id) fun _ => keepsTable_get fun ctx _ => ?_
  split
  · exact keepsTable_pure _
  · refine keepsTable_bind keepsTable_decision fun chosen => ?_
    cases chosen with
    | none => exact keepsTable_bind (keepsTable_setState _) fun _ => keepsTable_pure _
    | some literal =>
      refine keepsTable_bind keepsTable_openLevel fun _ => ?_
      refine keepsTable_bind (keepsTable_record _ _) fun _ => ?_
      refine keepsTable_bind (keepsTable_propagateLearning _ _) fun learning => ?_
      split
      · exact keepsTable_pure _
      · exact keepsTable_get fun _ _ => keepsTable_pure _

theorem keepsTable_rounds (budget : Nat) : KeepsTable (rounds budget : Step (Context ρ) Report) := by
  induction budget with
  | zero => exact keepsTable_throw _
  | succ budget ih =>
    refine keepsTable_bind keepsTable_round fun answer => ?_
    cases answer with
    | none => exact ih
    | some report => exact keepsTable_pure _

theorem keepsTable_solve : KeepsTable (solve : Step (Context ρ) Report) := by
  refine keepsTable_get fun ctx _ => ?_
  split
  · exact keepsTable_pure _
  · refine keepsTable_bind keepsTable_start fun consistent => ?_
    split
    · exact keepsTable_get fun _ _ => keepsTable_rounds _
    · exact keepsTable_get fun _ _ => keepsTable_pure _

/-! ## Calls -/

/-- The operations of a context. -/
inductive Operation : {α : Type} → Step (Context ρ) α → Prop
  | freshAtom (name : String) : Operation (freshAtom name)
  | atomNamed (name : String) : Operation (atomNamed name)
  | freshLiterals (count : Nat) : Operation (freshLiterals count)
  | readClause (text : String) : Operation (readClause text)
  | storeClause (clause : Clause) (source : Source) : Operation (storeClause clause source)
  | addClause (clause : Clause) : Operation (addClause clause)
  | readClauseFile (bytes : ByteArray) : Operation (readClauseFile bytes)
  | load (names : List String) (cnf : Propositional.Cnf) : Operation (load names cnf)
  | record (literal : Literal) (reason : Option ClauseKey) : Operation (record literal reason)
  | clear (literal : Literal) : Operation (clear literal)
  | openLevel : Operation openLevel
  | propagate (literal : Literal) : Operation (propagate literal)
  | decision : Operation decision
  | backjump (target : Nat) : Operation (backjump target)
  | backtrack (clause : Clause) (asserted : Literal) (level : Nat) :
    Operation (backtrack clause asserted level)
  | start : Operation start
  | propagateLearning (literal : Literal) (jumps : List Nat) :
    Operation (propagateLearning literal jumps)
  | resolveConflict (clause : Clause) : Operation (resolveConflict clause)
  | solve : Operation solve

theorem Operation.keepsTable {operation : Step (Context ρ) α} (h : Operation operation) :
    KeepsTable operation := by
  cases h with
  | freshAtom name => exact keepsTable_freshAtom name
  | atomNamed name => exact keepsTable_atomNamed name
  | freshLiterals count => exact keepsTable_freshLiterals count
  | readClause text => exact keepsTable_readClause text
  | storeClause clause source => exact keepsTable_storeClause clause source
  | addClause clause => exact keepsTable_addClause clause
  | readClauseFile bytes => exact keepsTable_readClauseFile bytes
  | load names cnf => exact keepsTable_load names cnf
  | record literal reason => exact keepsTable_record literal reason
  | clear literal => exact keepsTable_clear literal
  | openLevel => exact keepsTable_openLevel
  | propagate literal => exact keepsTable_propagate literal
  | decision => exact keepsTable_decision
  | backjump target => exact keepsTable_backjump target
  | backtrack clause asserted level => exact keepsTable_backtrack clause asserted level
  | start => exact keepsTable_start
  | propagateLearning literal jumps => exact keepsTable_propagateLearning literal jumps
  | resolveConflict clause => exact keepsTable_resolveConflict clause
  | solve => exact keepsTable_solve

/-- A context after calls of operations on an empty one, whatever came of each. -/
inductive Called : Context ρ → Prop
  | empty (config : Config) (random : ρ) : Called { config, random }
  | call {ctx : Context ρ} {α : Type} {operation : Step (Context ρ) α} (h : Called ctx)
    (hoperation : Operation operation) : Called (operation.run.run ctx).2

theorem Called.coherent {ctx : Context ρ} (h : Called ctx) : ctx.atoms.Coherent := by
  induction h with
  | empty config random => exact AtomTable.coherent_empty
  | call _ hoperation ih => exact ends_iff.1 (hoperation.keepsTable _ ih)

end search

end Satisfiability.Context
