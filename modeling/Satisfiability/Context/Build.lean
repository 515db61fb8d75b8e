import Satisfiability.Context.Basic
import Satisfiability.Text.Words

/-!
# Building a context

Atoms are created by name. Clauses are added as lists of literals or read from texts in which a dash
stands before the name of a negated atom.
-/

namespace Satisfiability.Context

open Search

variable {ρ : Type}

def freshAtom (name : String) : Step (Context ρ) Atom := do
  let ctx ← get
  if ctx.atoms.isFull then throw (.atoms .exhausted)
  else
    let (atom, atoms) ← entry (ctx.atoms.fresh? name)
    set { ctx with
      atoms
      watches := ctx.watches.addAtom atom
      graph := ctx.graph.addAtom atom }
    return atom

def atomNamed (name : String) : Step (Context ρ) Atom := do
  match (← get).atoms.atomOf? name with
  | some atom => return atom
  | none => freshAtom name

/-- The positive literal of a new atom, named by its number in a clause file. -/
def freshLiteral : Step (Context ρ) Literal := do
  let atom ← freshAtom (Nat.repr ((← get).atoms.count + 1))
  return ⟨atom, true⟩

def freshLiterals (count : Nat) : Step (Context ρ) (List Literal) :=
  (List.range count).mapM fun _ => freshLiteral

def readLiteral (word : List Char) : Step (Context ρ) Literal := do
  let (name, positive) := match word with
    | '-' :: name => (name, false)
    | name => (name, true)
  -- a name does not begin with a dash
  if name.isEmpty || name.head? == some '-' then throw (.reading (.literal 0))
  let atom ← atomNamed (String.ofList name)
  return ⟨atom, positive⟩

def readClause (text : String) : Step (Context ρ) Clause :=
  (Text.words text.toList).mapM readLiteral

def placeByLevel (level : Literal → Nat) (literal : Literal) : Clause → Clause
  | [] => [literal]
  | other :: rest =>
    if level other ≤ level literal then literal :: other :: rest
    else other :: placeByLevel level literal rest

/-- The literals in the order in which they are watched: those that are not false first, and then
the false ones from the highest level down. -/
def watchOrder (ctx : Context ρ) (clause : Clause) : Clause :=
  let level := fun literal : Literal => (ctx.atoms.level? literal.atom).getD 0
  let (failing, others) := clause.partition fun literal => ctx.valuation.status literal == .fails
  others ++ failing.foldr (placeByLevel level) []

def storeClause (clause : Clause) (source : Source) : Step (Context ρ) ClauseKey := do
  if clause.length < 2 then throw (.clauses .unitClause)
  -- a clause is watched by literals that are not false as long as it has such
  let clause := (← get).watchOrder clause
  clause.atoms.forM bump
  let ctx ← get
  match ctx.clauses.store clause source, clause with
  | .ok (key, clauses), first :: second :: _ =>
    set { ctx with clauses, watches := (ctx.watches.watch key first).watch key second }
    return key
  | .error cause, _ => throw (.clauses cause)
  | .ok _, _ => throw .outOfRange

def noteUnit (literal : Literal) (source : Source) : Step (Context ρ) ClauseKey :=
  modifyGet fun ctx =>
    let (key, clauses) := ctx.clauses.noteUnit literal source
    (key, { ctx with clauses })

def setState (state : SearchState) : Step (Context ρ) Unit :=
  modify fun ctx => { ctx with state }

/-- Adds a clause to the problem, which is allowed only without a decision. The result is the clause
with each literal once, and nothing for a tautology. -/
def addClause (clause : Clause) : Step (Context ρ) (Option Clause) := do
  if (← get).trail.hasDecision then throw .invalidState
  match clause.canonical? with
  | none => return none
  | some clause =>
    match clause with
    | [] => setState .unsatisfiable
    -- a unit clause is never watched, so it takes effect at once
    | [literal] =>
      let key ← noteUnit literal .problem
      match (← get).valuation.status literal with
      | .unvalued => record literal (some key)
      | .holds => pure ()
      | .fails => setState .unsatisfiable
    | clause => discard (storeClause clause .problem)
    return some clause

end Satisfiability.Context
