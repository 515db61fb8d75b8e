import Satisfiability.Context.Build

/-!
# Unit propagation

When a literal is made false, the clauses that watch it are examined. A clause finds another literal
to watch, or is true already, or makes its last open literal true, or is in conflict. What is made
true is propagated in turn, the earliest first.
-/

namespace Satisfiability.Context

open Search

variable {ρ : Type}

/-- Puts the clauses examined, and the rest, back to those that watch a literal. -/
def restoreWatches (literal : Literal) (keys : List ClauseKey) : Step (Context ρ) Unit :=
  modify fun ctx => { ctx with watches := ctx.watches.restore literal keys }

inductive Propagation where
  /-- No clause is in conflict; these literals were made true. -/
  | implied (literals : List Literal)
  | conflict (key : ClauseKey)
  deriving Repr, DecidableEq

/-- Examines the clauses taken from those that watch a literal now false. The clauses that keep
watching it, and the literals made true, are those found so far. -/
def examine (broken : Literal) (kept : List ClauseKey) (implied : List Literal) :
    (taken : List ClauseKey) → Step (Context ρ) Propagation
  | [] => do
    restoreWatches broken kept
    return .implied implied
  | key :: taken => do
    let ctx ← get
    match ctx.clauses.get? key with
    | none =>
      -- the list is put back before the fault, without the key that leads nowhere
      restoreWatches broken (kept ++ taken)
      throw (.propagation .corruptWatch)
    | some clause =>
      let (update, clause) ← entry (clause.rewatch? broken ctx.valuation)
      set { ctx with clauses := ctx.clauses.set key clause }
      match update with
      | .alreadyTrue => examine broken (kept ++ [key]) implied taken
      | .found literal =>
        -- the clause is on the list of its new watch from now on
        modify fun ctx => { ctx with watches := ctx.watches.watch key literal }
        examine broken kept implied taken
      | .unit literal =>
        record literal (some key)
        examine broken (kept ++ [key]) (implied ++ [literal]) taken
      | .conflict =>
        -- the clauses not examined keep their watches
        restoreWatches broken (kept ++ key :: taken)
        return .conflict key

/-- Propagates the literals of a queue, at most `budget` of them, and gives the clause in conflict,
if there is one. -/
def propagateQueue : (budget : Nat) → (queue : List Literal) → Step (Context ρ) (Option ClauseKey)
  | _, [] => return none
  | 0, _ :: _ => throw .outOfFuel
  | budget + 1, literal :: queue => do
    let taken ← modifyGet fun ctx =>
      let (keys, watches) := ctx.watches.take (-literal)
      (keys, { ctx with watches })
    match ← examine (-literal) [] [] taken with
    | .conflict key => return some key
    | .implied literals => propagateQueue budget (queue ++ literals)

/-- Propagates a true literal, and gives the clause in conflict, if there is one. Every literal made
true on the way had an atom without a value, so no more are propagated than there are such atoms,
and the first one. -/
def propagate (literal : Literal) : Step (Context ρ) (Option ClauseKey) := do
  propagateQueue ((← get).atoms.unvalued.length + 1) [literal]

end Satisfiability.Context
