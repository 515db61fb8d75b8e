import Satisfiability.Context.Solve
import Satisfiability.Equality.Solver

/-!
# Search modulo equality

A context and the theory of equality search together. What is true in the context is asserted to the
theory, literal by literal in the order of the trail. If the theory finds a contradiction, the
context learns from its explanation; if atoms follow, the first one without a value is made true in
the context, the explanation being its reason. Only when the theory has nothing to say is a decision
made.

The theory opens a level only for a level of the context that has a literal of the theory. Each
backjump of the context takes the theory back to the level that goes with the one jumped to.
-/

namespace Satisfiability

open Search
open Equality (Solver Verdict)

/-- A context and a theory that search together. -/
structure Coordinator (ρ : Type) where
  context : Context ρ
  theory : Solver
  /-- The level of the theory that goes with each level of the context. -/
  theoryLevels : List Nat := []
  /-- How many literals of the trail the theory has been told of. -/
  synced : Nat := 0
  /-- How many literals of the trail these were at the end of each level. -/
  syncedByLevel : List Nat := []

namespace Coordinator

variable {ρ : Type}

def theoryLevel? (coordinator : Coordinator ρ) (level : Nat) : Option Nat :=
  coordinator.theoryLevels[level]?

def onContext {α : Type} (operation : Step (Context ρ) α) : Step (Coordinator ρ) α :=
  fun coordinator =>
    let (result, context) := operation.run.run coordinator.context
    (result, { coordinator with context })

def orTheoryFault {σ α : Type} : Except TheoryFault α → Step σ α
  | .ok a => pure a
  | .error cause => throw (.theory cause)

/-- Asserts a literal to the theory, on a level that goes with the level of the literal. -/
def assertAt (level : Nat) (literal : Literal) : Step (Coordinator ρ) Unit := do
  -- levels of the context without a literal of the theory go with the present level of the theory
  modify fun c =>
    { c with theoryLevels :=
        c.theoryLevels ++ List.replicate (level - c.theoryLevels.length) c.theory.level }
  modify fun c =>
    if c.theoryLevels.length = level then
      -- the ground of the theory is open from the start
      let theory := if level = 0 then c.theory else c.theory.openLevel
      { c with theory, theoryLevels := c.theoryLevels ++ [theory.level] }
    else c
  let theory ← orTheoryFault ((← get).theory.assert literal)
  modify fun c => { c with theory }

def syncLiteral (literal : Literal) : Step (Coordinator ρ) Unit := do
  let level := ((← get).context.atoms.level? literal.atom).getD 0
  if (← get).theory.hasAtom literal.atom then assertAt level literal
  modify fun c =>
    let marks := c.syncedByLevel ++ List.replicate (level + 1 - c.syncedByLevel.length) c.synced
    { c with synced := c.synced + 1, syncedByLevel := marks.set level (c.synced + 1) }

def sync : Step (Coordinator ρ) Unit := do
  let c ← get
  (c.context.trail.literals.drop c.synced).forM syncLiteral

def followBackjump (level : Nat) : Step (Coordinator ρ) Unit := do
  let c ← get
  let theory ← orTheoryFault (c.theory.backtrack ((c.theoryLevel? level).getD c.theory.level))
  set { c with
    theory
    theoryLevels := c.theoryLevels.take (level + 1)
    synced := (c.syncedByLevel[level]?).getD c.synced
    syncedByLevel := c.syncedByLevel.take (level + 1) }

/-- Runs a propagation of the context and lets the theory follow its lowest backjump. -/
def following (operation : Step (Context ρ) Context.Learning) : Step (Coordinator ρ) Bool := do
  let learning ← onContext operation
  -- what lies above the lowest level jumped to is gone, whatever the other jumps were
  match learning.jumps.min? with
  | none => pure ()
  | some level => followBackjump level
  return learning.consistent

def propagate (literal : Literal) : Step (Coordinator ρ) Bool :=
  following (Context.propagateLearning literal [])

def countLemma : Step (Coordinator ρ) Unit :=
  modify fun c =>
    { c with context := { c.context with
        counters := { c.context.counters with lemmas := c.context.counters.lemmas + 1 } } }

def explanation (atom : Atom) : Step (Coordinator ρ) Clause := do
  let clause ← orTheoryFault ((← get).theory.explain atom)
  countLemma
  return clause

def learnFrom (atom : Atom) : Step (Coordinator ρ) Bool := do
  let clause ← explanation atom
  following (Context.resolveConflict clause)

/-- What became of an entailed literal in the context. -/
inductive Update where
  | alreadySet
  | contradicts
  | set
  deriving Repr, DecidableEq

/-- Makes an entailed literal true in the context, its explanation being the reason, unless it has a
value. -/
def update (literal : Literal) : Step (Coordinator ρ) Update := do
  match (← get).context.valuation literal.atom with
  | some value => return if value = literal.positive then .alreadySet else .contradicts
  | none =>
    let clause ← explanation literal.atom
    onContext do
      -- the explanation forces the literal, all its other literals being false
      let key ←
        if clause.length = 1 then Context.noteUnit literal .addition
        else Context.storeClause clause .addition
      Context.record literal (some key)
    return .set

/-- Deals with entailed literals up to the first one that is not true in the context. Nothing comes
of it if there is none; otherwise the result tells whether the search can go on. -/
def updateAll : List Literal → Step (Coordinator ρ) (Option Bool)
  | [] => return none
  | literal :: rest => do
    match ← update literal with
    | .alreadySet => updateAll rest
    | .contradicts => return some (← learnFrom literal.atom)
    | .set => return some (← propagate literal)

def consult : Step (Coordinator ρ) (Option Bool) := do
  match (← get).theory.propagate with
  | .conflict literal => return some (← learnFrom literal.atom)
  | .entailed literals => updateAll literals
  | .consistent => return none

variable [RandomSource ρ]

/-- A decision with all that follows, or the answer if no atom is left. -/
def decide : Step (Coordinator ρ) (Option Bool) := do
  match ← onContext Context.decision with
  | none =>
    onContext (Context.setState .satisfiable)
    return none
  | some literal =>
    onContext do
      Context.openLevel
      Context.record literal none
    return some (← propagate literal)

def countRound : Step (Coordinator ρ) Unit :=
  onContext <| modify fun ctx =>
    { ctx with counters := { ctx.counters with iterations := ctx.counters.iterations + 1 } }

def round : Step (Coordinator ρ) (Option Report) := do
  countRound
  if (← get).context.timeIsUp then return some .unknown
  sync
  -- a decision is made only if the theory has nothing to say
  let progress ← match ← consult with
    | some consistent => pure (some consistent)
    | none => decide
  if progress = some true then return none
  return some (← get).context.report

def rounds : (budget : Nat) → Step (Coordinator ρ) Report
  | 0 => throw .outOfFuel
  | budget + 1 => do
    match ← round with
    | some report => return report
    | none => rounds budget

/-- Searches for values that satisfy all clauses and are possible in the theory. -/
def solve : Step (Coordinator ρ) Report := do
  let ctx := (← get).context
  if ctx.state = .satisfiable ∨ ctx.state = .unsatisfiable then return ctx.report
  if ← onContext Context.start then rounds (Context.roundBudget ctx.atoms.count)
  else return (← get).context.report

end Coordinator

end Satisfiability
