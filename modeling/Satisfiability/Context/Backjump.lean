import Satisfiability.Context.Build

/-!
# Backjumps

A backjump closes levels and takes the values given on them away. After it, a learnt clause is
stored and forces its asserted literal.
-/

namespace Satisfiability.Context

open Search

variable {ρ : Type}

def closeLevel : Step (Context ρ) Unit := do
  let literals ← modifyGet fun ctx =>
    let (literals, trail) := ctx.trail.closeLevel
    (literals, { ctx with trail })
  literals.forM clear

def closeLevels : (count : Nat) → Step (Context ρ) Unit
  | 0 => return ()
  | count + 1 => do
    closeLevel
    closeLevels count

def backjump (target : Nat) : Step (Context ρ) Unit := do
  closeLevels ((← get).trail.level - target)

/-- The greatest level so far, and the greatest below it. -/
structure TopLevels where
  top : Option Nat := none
  second : Option Nat := none

def TopLevels.add (tops : TopLevels) (level : Nat) : TopLevels :=
  match tops.top, tops.second with
  | none, _ => { tops with top := some level }
  | some top, second =>
    if top < level then ⟨some level, some top⟩
    else if level = top then tops
    else
      match second with
      | none => { tops with second := some level }
      | some below => if below < level then { tops with second := some level } else tops

/-- Takes the levels of the literals of a clause into account, all of which have to have one. -/
def topLevels? (ctx : Context ρ) : TopLevels → Clause → Option TopLevels
  | tops, [] => some tops
  | tops, literal :: rest =>
    match ctx.atoms.level? literal.atom with
    | none => none
    | some level => ctx.topLevels? (tops.add level) rest

/-- The second-highest level of a clause, or zero if there are no two levels. -/
def backjumpLevel (ctx : Context ρ) (clause : Clause) : Except Fault Nat :=
  match clause with
  | [] => .error (.clauses .emptyClause)
  | [_] => .ok 0
  | clause =>
    -- an atom without a value has no level
    match ctx.topLevels? {} clause with
    | none => .error .backjump
    | some tops => .ok (tops.second.getD 0)

/-- Returns to a level and adds a clause that forces a literal there. A clause of one literal forces
it at level zero. -/
def backtrack (clause : Clause) (asserted : Literal) (level : Nat) :
    Step (Context ρ) ClauseKey := do
  let key ← match clause with
    | [] => throw (.clauses .emptyClause)
    | [_] => do
      backjump 0
      bump asserted.atom
      noteUnit asserted .addition
    | clause => do
      backjump level
      storeClause clause .addition
  -- activities fade once for each clause learnt
  modify fun ctx => { ctx with atoms := ctx.atoms.decay ctx.config.activityDecay.value }
  record asserted (some key)
  return key

end Satisfiability.Context
