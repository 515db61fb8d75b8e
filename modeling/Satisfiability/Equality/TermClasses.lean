import Satisfiability.Ascending
import Satisfiability.FirstOrder.Term

/-!
# Congruence classes of terms

Terms are kept as nodes, equal terms sharing one. Each node points to a node of its class, and the
node that points to itself represents the class. On the representative are kept the parents of the
class, the nodes with an argument in it. Merging two classes merges those of their parents that
become congruent. Merges are logged, so that they can be undone back to a checkpoint; since the
pointers are changed by nothing else, undoing a merge is setting one pointer back.
-/

namespace Satisfiability.Equality

open Satisfiability.FirstOrder (Term)

abbrev NodeId : Type := Nat

/-- A term: its symbol, its arguments, where it points, and, if it points to itself, the nodes with
an argument in its class. -/
structure TermNode where
  symbol : String
  arguments : List NodeId
  pointer : NodeId
  parents : IndexSet := {}
  deriving DecidableEq

structure Merge where
  absorbed : NodeId
  representative : NodeId
  addedParents : List NodeId
  deriving Repr, DecidableEq

structure TermClasses where
  nodes : Array TermNode := #[]
  /-- The merges since the newest checkpoint, the newest first. -/
  log : List Merge := []
  /-- The merges before each checkpoint, back to the one before it; the newest checkpoint first. -/
  checkpoints : List (List Merge) := []
  deriving DecidableEq

namespace TermClasses

def size (classes : TermClasses) : Nat := classes.nodes.size

def chase (classes : TermClasses) : (steps : Nat) → NodeId → NodeId
  | 0, id => id
  | steps + 1, id =>
    match classes.nodes[id]? with
    | none => id
    | some node => if node.pointer = id then id else classes.chase steps node.pointer

/-- The node that represents the class of a node. The pointers lead through different nodes, so
there are fewer of them than nodes. -/
def representative (classes : TermClasses) (id : NodeId) : NodeId := classes.chase classes.size id

def same (classes : TermClasses) (a b : NodeId) : Bool :=
  classes.representative a == classes.representative b

def congruent (classes : TermClasses) (a b : NodeId) : Bool :=
  match classes.nodes[a]?, classes.nodes[b]? with
  | some m, some n =>
    m.symbol == n.symbol && m.arguments.length == n.arguments.length
      && (m.arguments.zip n.arguments).all fun (x, y) => classes.same x y
  | _, _ => false

def parents (classes : TermClasses) (id : NodeId) : IndexSet :=
  match classes.nodes[id]? with
  | none => {}
  | some node => node.parents

def modify (classes : TermClasses) (id : NodeId) (f : TermNode → TermNode) : TermClasses :=
  { classes with nodes := classes.nodes.modify id f }

/-! ## Nodes of terms -/

def nodeOf? (classes : TermClasses) (symbol : String) (arguments : List NodeId) : Option NodeId :=
  classes.nodes.findIdx? fun node => node.symbol == symbol && node.arguments == arguments

def addParent (parent : NodeId) (classes : TermClasses) (id : NodeId) : TermClasses :=
  classes.modify (classes.representative id) fun node =>
    { node with parents := node.parents.insert parent }

/-- The node with a symbol and arguments, which is new if there is none. -/
def internNode (classes : TermClasses) (symbol : String) (arguments : List NodeId) :
    NodeId × TermClasses :=
  match classes.nodeOf? symbol arguments with
  | some id => (id, classes)
  | none =>
    let id := classes.size
    -- each argument's class learns of its new parent
    let classes := arguments.foldl (addParent id) classes
    (id, { classes with nodes := classes.nodes.push { symbol, arguments, pointer := id } })

mutual

def intern (classes : TermClasses) : Term → NodeId × TermClasses
  | .var name => classes.internNode name []
  | .const name => classes.internNode name []
  | .app function arguments =>
    let (ids, classes) := classes.internAll arguments
    classes.internNode function ids

def internAll (classes : TermClasses) : List Term → List NodeId × TermClasses
  | [] => ([], classes)
  | t :: ts =>
    let (id, classes) := classes.intern t
    let (ids, classes) := classes.internAll ts
    (id :: ids, classes)

end

mutual

def idOf? (classes : TermClasses) : Term → Option NodeId
  | .var name => classes.nodeOf? name []
  | .const name => classes.nodeOf? name []
  | .app function arguments =>
    match classes.idsOf? arguments with
    | some ids => classes.nodeOf? function ids
    | none => none

def idsOf? (classes : TermClasses) : List Term → Option (List NodeId)
  | [] => some []
  | t :: ts =>
    match classes.idOf? t, classes.idsOf? ts with
    | some id, some ids => some (id :: ids)
    | _, _ => none

end

/-! ## Merging -/

def absorb (classes : TermClasses) (absorbed representative : NodeId) : TermClasses :=
  let own := (classes.parents absorbed).toList
  let present := (classes.parents representative).toList
  -- only these go when the merge is undone
  let addedParents := own.filter fun parent => !present.contains parent
  let classes := classes.modify absorbed fun node => { node with pointer := representative }
  let classes := classes.modify representative fun node =>
    { node with parents := node.parents.insertAll own }
  { classes with log := ⟨absorbed, representative, addedParents⟩ :: classes.log }

/-- The pairs of a parent of one class and a parent of another that are congruent and not yet in one
class. -/
def congruentPairs (classes : TermClasses) (ps qs : List NodeId) : List (NodeId × NodeId) :=
  (ps.flatMap fun p => qs.map fun q => (p, q)).filter fun (p, q) =>
    !classes.same p q && classes.congruent p q

/-- Merges the classes of pairs of nodes, the first pair first, and then those of the pairs that
become congruent, the last one found first; at most `budget` pairs. Counts the merges. -/
def mergeAll (classes : TermClasses) (merges : Nat) :
    (budget : Nat) → (pending : List (NodeId × NodeId)) → Nat × TermClasses
  | 0, _ => (merges, classes)
  | _, [] => (merges, classes)
  | budget + 1, (a, b) :: pending =>
    let absorbed := classes.representative a
    let representative := classes.representative b
    if absorbed = representative then classes.mergeAll merges budget pending
    else
      -- the parents are looked up while there are two classes still
      let ps := (classes.parents absorbed).toList
      let qs := (classes.parents representative).toList
      let classes := classes.absorb absorbed representative
      classes.mergeAll (merges + 1) budget ((classes.congruentPairs ps qs).reverse ++ pending)

/-- Merges the classes of two nodes with all that follows, and counts the merges. There are fewer
merges than nodes, and each is followed by at most as many pairs as there are pairs of nodes. -/
def merge (classes : TermClasses) (a b : NodeId) : Nat × TermClasses :=
  classes.mergeAll 0 (classes.size * classes.size * classes.size + 1) [(a, b)]

/-! ## Undoing -/

def checkpoint (classes : TermClasses) : TermClasses :=
  { classes with log := [], checkpoints := classes.log :: classes.checkpoints }

def undo (classes : TermClasses) (merge : Merge) : TermClasses :=
  let classes := classes.modify merge.absorbed fun node => { node with pointer := merge.absorbed }
  classes.modify merge.representative fun node =>
    { node with parents := merge.addedParents.foldl IndexSet.erase node.parents }

def restore? (classes : TermClasses) : Option TermClasses :=
  match classes.checkpoints with
  | [] => none
  | log :: checkpoints =>
    some { classes.log.foldl undo classes with log, checkpoints }

/-! ## Checked access -/

def hasAll (classes : TermClasses) (ids : List NodeId) : Bool := ids.all (· < classes.size)

end TermClasses

end Satisfiability.Equality
