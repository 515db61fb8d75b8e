/-!
# Immediate dominators

In a directed graph with a root, a node dominates another if every path from the root to the other
passes through it. The dominators of a node that can be reached lie on one path, and the last of
them before the node is its immediate dominator.
-/

namespace Satisfiability.Search

structure Digraph (Node : Type) where
  arrows : List (Node × Node)

namespace Digraph

variable {Node : Type} [DecidableEq Node]

/-- The nodes seen, with each allowed node at the end of an arrow from one of them. -/
def extend (graph : Digraph Node) (allowed : Node → Bool) (seen : List Node) : List Node :=
  graph.arrows.foldl
    (fun seen (a, b) =>
      if seen.contains a && allowed b && !seen.contains b then b :: seen else seen)
    seen

/-- Extends the nodes seen until nothing is added, at most `rounds` times. -/
def saturate (graph : Digraph Node) (allowed : Node → Bool) :
    (rounds : Nat) → (seen : List Node) → List Node
  | 0, seen => seen
  | rounds + 1, seen =>
    let more := graph.extend allowed seen
    if more.length = seen.length then seen else graph.saturate allowed rounds more

/-- The nodes to which a path of allowed nodes leads from the root. Each node found is at the end of
an arrow of its own, so there are no more rounds than arrows. -/
def reachable (graph : Digraph Node) (allowed : Node → Bool) (root : Node) : List Node :=
  if allowed root then graph.saturate allowed graph.arrows.length [root] else []

/-- Whether every path from the root to `node` passes through `via`. -/
def dominates (graph : Digraph Node) (root via node : Node) : Bool :=
  via == node || !(graph.reachable (· != via) root).contains node

def nodes (graph : Digraph Node) (root : Node) : List Node :=
  (root :: graph.arrows.flatMap fun (a, b) => [a, b]).eraseDups

/-- The nodes other than `node` through which every path from the root to it passes. -/
def strictDominators (graph : Digraph Node) (root node : Node) : List Node :=
  (graph.nodes root).filter fun via => via != node && graph.dominates root via node

/-- The dominator of a node that the other ones dominate, if the node can be reached. -/
def immediateDominator? (graph : Digraph Node) (root node : Node) : Option Node :=
  if (graph.reachable (fun _ => true) root).contains node then
    -- the last one is dominated by all others
    let dominators := graph.strictDominators root node
    dominators.find? fun last => dominators.all fun via => graph.dominates root via last
  else none

end Digraph

end Satisfiability.Search
