import Satisfiability.Clause.Key

/-!
# The index of watches

For each literal the keys of the clauses that watch it, in the order in which they will be examined
once the literal is false. The numbers of keys also tell which value of an atom leaves fewer clauses
to examine.
-/

namespace Satisfiability.Search

/-- The clauses that watch the two literals of an atom. -/
structure WatchLists where
  positive : List ClauseKey := []
  negative : List ClauseKey := []
  deriving Repr, DecidableEq, Inhabited

namespace WatchLists

def get (lists : WatchLists) (sign : Bool) : List ClauseKey :=
  if sign then lists.positive else lists.negative

def set (lists : WatchLists) (sign : Bool) (keys : List ClauseKey) : WatchLists :=
  if sign then { lists with positive := keys } else { lists with negative := keys }

end WatchLists

structure WatchIndex where
  lists : Array WatchLists := #[]
  deriving Repr, DecidableEq

namespace WatchIndex

def addAtom (index : WatchIndex) (atom : Atom) : WatchIndex :=
  ⟨index.lists ++ Array.replicate (atom + 1 - index.lists.size) ({} : WatchLists)⟩

def watching (index : WatchIndex) (literal : Literal) : List ClauseKey :=
  (index.lists.getD literal.atom ({} : WatchLists)).get literal.positive

def setWatching (index : WatchIndex) (literal : Literal) (keys : List ClauseKey) : WatchIndex :=
  ⟨(index.addAtom literal.atom).lists.modify literal.atom fun lists =>
    lists.set literal.positive keys⟩

def watch (index : WatchIndex) (key : ClauseKey) (literal : Literal) : WatchIndex :=
  index.setWatching literal (index.watching literal ++ [key])

def take (index : WatchIndex) (literal : Literal) : List ClauseKey × WatchIndex :=
  if literal.atom < index.lists.size then
    (index.watching literal, index.setWatching literal [])
  else ([], index)

def restore (index : WatchIndex) (literal : Literal) (keys : List ClauseKey) : WatchIndex :=
  index.setWatching literal (keys ++ index.watching literal)

def isWatching (index : WatchIndex) (key : ClauseKey) (literal : Literal) : Bool :=
  (index.watching literal).contains key

/-- The numbers of clauses that watch the positive and the negative literal of an atom. -/
def counts? (index : WatchIndex) (atom : Atom) : Option (Nat × Nat) :=
  (index.lists[atom]?).map fun lists => (lists.positive.length, lists.negative.length)

end WatchIndex

end Satisfiability.Search
