import Satisfiability.Context.Analysis
import Satisfiability.Context.Backjump
import Satisfiability.Context.Decision
import Satisfiability.Context.Propagation

/-!
# The search

What is true without a decision is propagated first. Then decisions are made and propagated, one on
each new level, until every atom has a value. On a conflict a clause is learnt, the search returns
to the level at which that clause forces a literal, and goes on from there. A conflict without any
decision shows that the clauses cannot be satisfied.
-/

namespace Satisfiability.Context

open Search

variable {ρ : Type}

/-- Propagates the literals that are true without a decision, and tells whether there is no
conflict. -/
def propagateGround : List Literal → Step (Context ρ) Bool
  | [] => return true
  | literal :: rest => do
    match ← propagate literal with
    | none => propagateGround rest
    | some _ =>
      setState .unsatisfiable
      return false

/-- Begins a search, and tells whether there is no conflict without a decision. -/
def start : Step (Context ρ) Bool := do
  if (← get).state = .unsatisfiable then return false
  setState .solving
  propagateGround (← get).trail.ground

def countConflict : Step (Context ρ) Unit :=
  modify fun ctx =>
    { ctx with counters := { ctx.counters with conflicts := ctx.counters.conflicts + 1 } }

/-- Learns from a clause in conflict. The result is the literal that the learnt clause forces, with
the level it is forced on, and nothing if the conflict does not rest on any decision. -/
def learn (key : ClauseKey) : Step (Context ρ) (Option (Literal × Nat)) := do
  countConflict
  match (← get).analyse key with
  | .error fault => throw fault
  | .ok .fundamental =>
    setState .unsatisfiable
    return none
  | .ok (.learnt { clause, asserted, level }) =>
    discard (backtrack clause asserted level)
    return some (asserted, (← get).trail.level)

structure Learning where
  /-- Whether there was no conflict without a decision. -/
  consistent : Bool
  jumps : List Nat
  deriving Repr, DecidableEq

/-- Propagates a literal and then, on each conflict, the literal forced by what is learnt, as long
as the budget lasts. -/
def propagateLearningWithin (jumps : List Nat) :
    (budget : Nat) → (literal : Literal) → Step (Context ρ) Learning
  | 0, _ => throw .outOfFuel
  | budget + 1, literal => do
    match ← propagate literal with
    | none => return ⟨true, jumps⟩
    | some key =>
      match ← learn key with
      | none => return ⟨false, jumps⟩
      | some (asserted, level) => propagateLearningWithin (jumps ++ [level]) budget asserted

def propagateLearning (literal : Literal) (jumps : List Nat) : Step (Context ρ) Learning := do
  propagateLearningWithin jumps (roundBudget (← get).atoms.count) literal

def falseLevels? (ctx : Context ρ) (clause : Clause) : Option (List Nat) :=
  clause.mapM fun literal =>
    if ctx.valuation.status literal = .fails then some ((ctx.atoms.level? literal.atom).getD 0)
    else none

/-- Learns from a clause that is false under the present values and need not be part of the context.
One with a single literal of its highest level forces that literal as it stands; any other is stored
and analysed on its highest level. -/
def resolveConflict (clause : Clause) : Step (Context ρ) Learning := do
  let some clause := clause.canonical? | throw .invalidState
  let ctx ← get
  let some levels := ctx.falseLevels? clause | throw .invalidState
  let top := levels.foldl max 0
  -- false without any decision
  if top = 0 then
    setState .unsatisfiable
    return ⟨false, []⟩
  match ctx.ofLevel top clause with
  | [asserted] =>
    countConflict
    match ctx.backjumpLevel clause with
    | .error fault => throw fault
    | .ok level =>
      discard (backtrack clause asserted level)
      propagateLearning asserted [(← get).trail.level]
  | _ =>
    -- analysis takes place on the newest level, so that of the clause has to be it
    let jumps ← if top < ctx.trail.level then do
        backjump top
        pure [top]
      else pure []
    let key ← storeClause clause .addition
    match ← learn key with
    | none => return ⟨false, jumps⟩
    | some (asserted, level) => propagateLearning asserted (jumps ++ [level])

variable [RandomSource ρ]

/-- One round of a search: a decision with all that follows. There is an answer if no atom is left,
if a conflict does not rest on any decision, or if the time is up. -/
def round : Step (Context ρ) (Option Report) := do
  modify fun ctx =>
    { ctx with counters := { ctx.counters with iterations := ctx.counters.iterations + 1 } }
  if (← get).timeIsUp then return some .unknown
  match ← decision with
  | none =>
    setState .satisfiable
    return some .satisfiable
  | some literal =>
    -- a decision has no reason
    openLevel
    record literal none
    let learning ← propagateLearning literal []
    if learning.consistent then return none else return some (← get).report

def rounds : (budget : Nat) → Step (Context ρ) Report
  | 0 => throw .outOfFuel
  | budget + 1 => do
    match ← round with
    | some report => return report
    | none => rounds budget

def solve : Step (Context ρ) Report := do
  let ctx ← get
  if ctx.state = .satisfiable ∨ ctx.state = .unsatisfiable then return ctx.report
  if ← start then rounds (roundBudget (← get).atoms.count)
  else return (← get).report

end Satisfiability.Context
