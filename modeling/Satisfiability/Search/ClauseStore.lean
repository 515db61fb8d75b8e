import Satisfiability.Clause
import Satisfiability.Fault
import Satisfiability.Scalar
import Satisfiability.Valuation

/-!
# The store of clauses

Clauses of two or more literals are stored with two of the literals watched. As long as no watched
literal is false a clause needs no attention; once one is, `WatchedClause.rewatch` looks for another
literal to watch. Which literals are watched is all that changes of a clause, so the literals remain
the same up to order.
-/

namespace Satisfiability.Search

/-- A clause of at least two literals, of which the first two are watched. -/
structure WatchedClause where
  first : Literal
  second : Literal
  others : List Literal
  deriving Repr, DecidableEq

inductive WatchUpdate where
  | alreadyTrue
  | found (literal : Literal)
  | unit (literal : Literal)
  | conflict
  deriving Repr, DecidableEq

namespace WatchedClause

def literals (clause : WatchedClause) : Clause := clause.first :: clause.second :: clause.others

def ofLiterals? : Clause → Option WatchedClause
  | first :: second :: others => some { first, second, others }
  | _ => none

/-- The first element that satisfies `p`, and the list with `x` in its place. -/
def exchange? {α : Type} (p : α → Bool) (x : α) : List α → Option (α × List α)
  | [] => none
  | a :: rest =>
    if p a then some (a, x :: rest)
    else (exchange? p x rest).map fun (b, rest) => (b, a :: rest)

/-- The clause with `literal` as its second watch, if it is watched. -/
def turn? (clause : WatchedClause) (literal : Literal) : Option WatchedClause :=
  if clause.first = literal then some { clause with first := clause.second, second := clause.first }
  else if clause.second = literal then some clause
  else none

def rewatch? (clause : WatchedClause) (broken : Literal) (valuation : Valuation) :
    Option (WatchUpdate × WatchedClause) :=
  (clause.turn? broken).map fun clause =>
    if valuation.status clause.first = .holds then (.alreadyTrue, clause)
    else
      -- a literal that is true or open takes the place of the false watch
      match exchange? (fun literal => valuation.status literal != .fails) clause.second
          clause.others with
      | some (literal, others) => (.found literal, { clause with second := literal, others })
      | none =>
        if valuation.status clause.first = .unvalued then (.unit clause.first, clause)
        else (.conflict, clause)

end WatchedClause

structure Shelf where
  stored : Array WatchedClause := #[]
  units : Array Literal := #[]
  deriving Repr, DecidableEq

namespace Shelf

def clauses (shelf : Shelf) : List Clause :=
  (shelf.units.toList.map fun literal => [literal])
    ++ shelf.stored.toList.map WatchedClause.literals

def count (shelf : Shelf) : Nat := shelf.stored.size + shelf.units.size

/-- Whether no number is left for a further clause. Stored clauses are numbered by words of 32 bits.
-/
def isFull (shelf : Shelf) : Bool := decide (halfWordCount ≤ shelf.stored.size)

end Shelf

structure ClauseStore where
  problem : Shelf := {}
  addition : Shelf := {}
  deriving Repr, DecidableEq

namespace ClauseStore

def shelf (store : ClauseStore) : Source → Shelf
  | .problem => store.problem
  | .addition => store.addition

def setShelf (store : ClauseStore) (source : Source) (shelf : Shelf) : ClauseStore :=
  match source with
  | .problem => { store with problem := shelf }
  | .addition => { store with addition := shelf }

def store (store : ClauseStore) (clause : Clause) (source : Source) :
    Except ClauseFault (ClauseKey × ClauseStore) :=
  match clause with
  | [] => .error .emptyClause
  | [_] => .error .unitClause
  | first :: second :: others =>
    let shelf := store.shelf source
    if shelf.isFull then .error .storageExhausted
    else
      .ok (.stored source shelf.stored.size,
        store.setShelf source { shelf with stored := shelf.stored.push { first, second, others } })

def noteUnit (store : ClauseStore) (literal : Literal) (source : Source) :
    ClauseKey × ClauseStore :=
  let shelf := store.shelf source
  (.unit source literal, store.setShelf source { shelf with units := shelf.units.push literal })

def get? (store : ClauseStore) : ClauseKey → Option WatchedClause
  | .stored source index => (store.shelf source).stored[index]?
  | .unit _ _ => none

def set (store : ClauseStore) (key : ClauseKey) (clause : WatchedClause) : ClauseStore :=
  match key with
  | .stored source index =>
    let shelf := store.shelf source
    store.setShelf source { shelf with stored := shelf.stored.setIfInBounds index clause }
  | .unit _ _ => store

def literals? (store : ClauseStore) : ClauseKey → Option Clause
  | .unit _ literal => some [literal]
  | .stored source index => (store.get? (.stored source index)).map WatchedClause.literals

def problemClauses (store : ClauseStore) : List Clause := store.problem.clauses

def additionClauses (store : ClauseStore) : List Clause := store.addition.clauses

end ClauseStore

end Satisfiability.Search
