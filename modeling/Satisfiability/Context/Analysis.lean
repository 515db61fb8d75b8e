import Satisfiability.Context.Basic

/-!
# Analysis of conflicts

From a clause that is false under the present values, resolution derives a clause with a single
literal of the newest level. It resolves on the literal of that level that was made false last, with
the clause that forced it. What is false without any decision is left out. The derived clause forces
the literal at the greatest level of its other literals.
-/

namespace Satisfiability.Context

open Search

variable {ρ : Type}

/-- A clause learnt from a conflict, the literal that it forces, and the level at which it does. -/
structure Asserting where
  clause : Clause
  asserted : Literal
  level : Nat
  deriving Repr, DecidableEq

inductive Analysis where
  | fundamental
  | learnt (asserting : Asserting)
  deriving Repr, DecidableEq

def ofLevel (ctx : Context ρ) (level : Nat) (clause : Clause) : Clause :=
  clause.filter fun literal => ctx.atoms.level? literal.atom == some level

/-- Adds to a clause the literals of another one that it lacks, but for those of the pivot and those
with a value of level zero. -/
def merge (ctx : Context ρ) (pivot : Option Atom) (clause other : Clause) : Clause :=
  other.foldl
    (fun clause literal =>
      if some literal.atom == pivot || ctx.atoms.level? literal.atom == some 0
        || clause.contains literal then clause
      else clause ++ [literal])
    clause

def resolve (ctx : Context ρ) (pivot : Atom) (clause other : Clause) : Clause :=
  ctx.merge (some pivot) (clause.filter (·.atom != pivot)) other

/-- The position of a literal's value, as a number that is zero if there is no value. -/
def lateness (ctx : Context ρ) (literal : Literal) : Nat :=
  match ctx.atoms.position? literal.atom with
  | none => 0
  | some position => position + 1

def latest? (ctx : Context ρ) (literals : List Literal) : Option Literal :=
  literals.foldl
    (fun best literal =>
      match best with
      | none => some literal
      | some other => if ctx.lateness other ≤ ctx.lateness literal then some literal else best)
    none

/-- Resolves until a single literal of the level remains, at most `budget` times. -/
def resolveWithin (ctx : Context ρ) (level : Nat) :
    (budget : Nat) → (clause : Clause) → Except Fault (Clause × Literal)
  | 0, _ => .error .outOfFuel
  | budget + 1, clause =>
    match ctx.ofLevel level clause with
    -- a conflict has a literal of the level, and resolution keeps one
    | [] => .error (.analysis .emptyResolution)
    | [asserted] => .ok (clause, asserted)
    | current =>
      match ctx.latest? current with
      | none => .error (.analysis .emptyResolution)
      | some last =>
        -- only the decision of the level has no reason, and it comes before all others
        match ctx.graph.reason? last.atom with
        | none => .error (.analysis .missingReason)
        | some reason =>
          match ctx.clauses.literals? reason with
          | none => .error (.clauses .missing)
          | some literals =>
            ctx.resolveWithin level budget (ctx.resolve last.atom clause literals)

/-- The greatest level of the literals of other atoms than the asserted one. -/
def assertionLevel (ctx : Context ρ) (asserted : Literal) (clause : Clause) : Nat :=
  ((clause.filter (·.atom != asserted.atom)).filterMap fun literal =>
    ctx.atoms.level? literal.atom).foldl max 0

def analyse (ctx : Context ρ) (key : ClauseKey) : Except Fault Analysis :=
  let level := ctx.trail.level
  if level = 0 then .ok .fundamental
  else
    match ctx.clauses.literals? key with
    | none => .error (.clauses .missing)
    | some literals =>
      if ctx.trail.decision?.isNone then .error (.analysis .noDecision)
      else
        -- values of level zero do not count from the start on
        let clause := ctx.merge none [] literals
        match ctx.resolveWithin level (roundBudget ctx.atoms.count) clause with
        | .error fault => .error fault
        | .ok (clause, asserted) =>
          .ok (.learnt { clause, asserted, level := ctx.assertionLevel asserted clause })

end Satisfiability.Context
