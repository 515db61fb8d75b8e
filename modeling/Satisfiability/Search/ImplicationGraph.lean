import Satisfiability.Ascending
import Satisfiability.Clause.Key
import Satisfiability.Search.Dominator

/-!
# The implication graph

For each atom with a value the clause that forced the value. The parents of the atom are the other
atoms of that clause, and its children are the atoms of which it is a parent.
-/

namespace Satisfiability.Search

structure ImplicationNode where
  /-- The clause that forced the value; decisions have none. -/
  reason : Option ClauseKey := none
  parents : IndexSet := {}
  children : IndexSet := {}
  deriving DecidableEq, Inhabited

structure ImplicationGraph where
  nodes : Array ImplicationNode := #[]
  deriving DecidableEq

namespace ImplicationGraph

def addAtom (graph : ImplicationGraph) (atom : Atom) : ImplicationGraph :=
  ⟨graph.nodes ++ Array.replicate (atom + 1 - graph.nodes.size) ({} : ImplicationNode)⟩

def node (graph : ImplicationGraph) (atom : Atom) : ImplicationNode :=
  graph.nodes.getD atom {}

def modify (graph : ImplicationGraph) (atom : Atom) (f : ImplicationNode → ImplicationNode) :
    ImplicationGraph :=
  ⟨graph.nodes.modify atom f⟩

def addChild (child : Atom) (graph : ImplicationGraph) (parent : Atom) : ImplicationGraph :=
  (graph.addAtom parent).modify parent fun node =>
    { node with children := node.children.insert child }

def removeChild (child : Atom) (graph : ImplicationGraph) (parent : Atom) : ImplicationGraph :=
  graph.modify parent fun node => { node with children := node.children.erase child }

def note (graph : ImplicationGraph) (atom : Atom) (reason : Option ClauseKey)
    (clauseAtoms : List Atom) : ImplicationGraph :=
  -- the atom is in the clause that forces it, but no parent of itself
  let parents := (IndexSet.ofList clauseAtoms).erase atom
  let graph := parents.toList.foldl (addChild atom) (graph.addAtom atom)
  graph.modify atom fun node => { node with reason, parents }

def reset (graph : ImplicationGraph) (atom : Atom) : ImplicationGraph :=
  let parents := (graph.node atom).parents
  parents.toList.foldl (removeChild atom) (graph.modify atom fun _ => {})

def reason? (graph : ImplicationGraph) (atom : Atom) : Option ClauseKey := (graph.node atom).reason

/-- Whether some atom without a value has a reason or an edge, or some atom with a value has an edge
to one without. -/
def hasDanglingEdge (graph : ImplicationGraph) (valued : Atom → Bool) : Bool :=
  graph.nodes.toList.zipIdx.any fun (node, atom) =>
    let edges := node.parents.toList ++ node.children.toList
    if valued atom then edges.any (!valued ·) else !edges.isEmpty || node.reason.isSome

/-- The implications between the atoms of a level, and from those of a conflict to a node of its
own. -/
def levelGraph (graph : ImplicationGraph) (level conflict : List Atom) : Digraph (Option Atom) where
  arrows :=
    (level.flatMap fun atom =>
      ((graph.node atom).parents.toList.filter level.contains).map fun parent =>
        (some parent, some atom))
    ++ (conflict.filter level.contains).map fun atom => (some atom, none)

/-- The last atom through which every path from the decision of a level to the conflict passes, by a
computation of immediate dominators. -/
def firstUipBy (immediate : Digraph (Option Atom) → Option Atom → Option Atom → Option (Option Atom))
    (graph : ImplicationGraph) (decision : Atom) (level conflict : List Atom) : Option Atom :=
  if level.contains decision then
    (immediate (graph.levelGraph level conflict) (some decision) none).join
  else none

/-- The last atom through which every path from the decision of a level to the conflict passes. -/
def firstUip? (graph : ImplicationGraph) (decision : Atom) (level conflict : List Atom) :
    Option Atom :=
  graph.firstUipBy Digraph.immediateDominator? decision level conflict

end ImplicationGraph

end Satisfiability.Search
