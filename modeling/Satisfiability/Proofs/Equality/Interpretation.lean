import Satisfiability.Equality.Solver
import Satisfiability.Proofs.Equality.Interning
import Satisfiability.Proofs.FirstOrder.Semantics

/-!
# The structure of congruence classes

Closed classes are the domain of a structure: a symbol applied to classes is the class of a node
with this symbol and arguments in these classes, and it does not matter which node, since all such
nodes are congruent (`Closed.classOf?`). The value of a term is its class (`Closed.value`), and an
equality or a relation is true exactly if its two sides are in one class (`Closed.truth`).
-/

namespace Satisfiability.Equality.TermClasses

open Satisfiability.FirstOrder (Term Formula Structure)

variable {classes classes' : TermClasses} {id : NodeId} {symbol : String} {arguments : List NodeId}

/-- The class of the nodes with a symbol and arguments in some classes. -/
def classOf? (classes : TermClasses) (symbol : String) (arguments : List NodeId) : Option NodeId :=
  (classes.nodes.findIdx? fun node => node.symbol == symbol &&
    node.arguments.map classes.representative == arguments).map classes.representative

def interpretation (classes : TermClasses) : Structure NodeId where
  var name := (classes.classOf? name []).getD 0
  const name := (classes.classOf? name []).getD 0
  app function arguments := (classes.classOf? function arguments).getD 0
  rel name arguments := classes.classOf? name arguments = classes.classOf? Equality.truthSymbol []

/-- The nodes of the two sides of an equality, or of a relation and of truth. -/
inductive HasSides (classes : TermClasses) : Formula → NodeId × NodeId → Prop
  | equality {left right : Term} {a b : NodeId} (hleft : classes.idOf? left = some a)
    (hright : classes.idOf? right = some b) : HasSides classes (.equality left right) (a, b)
  | relation {name : String} {ts : List Term} {ids : List NodeId} {a b : NodeId}
    (hids : classes.idsOf? ts = some ids) (hrelation : classes.nodeOf? name ids = some a)
    (htruth : classes.nodeOf? Equality.truthSymbol [] = some b) :
    HasSides classes (.relation name ts) (a, b)

theorem HasSides.lt_size {formula : Formula} {sides : NodeId × NodeId}
    (h : classes.HasSides formula sides) : sides.1 < classes.size ∧ sides.2 < classes.size := by
  cases h with
  | equality hleft hright => exact ⟨lt_size_of_idOf? hleft, lt_size_of_idOf? hright⟩
  | relation _ hrelation htruth =>
    exact ⟨lt_size_of_term? (term?_of_nodeOf? hrelation),
      lt_size_of_term? (term?_of_nodeOf? htruth)⟩

theorem HasSides.isAtomic {formula : Formula} {sides : NodeId × NodeId}
    (h : classes.HasSides formula sides) : formula.isAtomic = true := by
  cases h <;> rfl

theorem Valid.hasSides_of_term (h : classes'.Valid)
    (hterm : ∀ id term, classes.term? id = some term → classes'.term? id = some term)
    {formula : Formula} {sides : NodeId × NodeId} (hsides : classes.HasSides formula sides) :
    classes'.HasSides formula sides := by
  cases hsides with
  | equality hleft hright =>
    exact .equality (h.idOf?_of_term hterm _ hleft) (h.idOf?_of_term hterm _ hright)
  | relation hids hrelation htruth =>
    exact .relation (h.idsOf?_of_term hterm _ hids) (h.nodeOf?_of_term hterm hrelation)
      (h.nodeOf?_of_term hterm htruth)

/-- All nodes with a symbol and arguments in some classes are in one class. -/
theorem Closed.classOf? (h : classes.Closed) (hterm : classes.term? id = some (symbol, arguments)) :
    classes.classOf? symbol (arguments.map classes.representative) =
      some (classes.representative id) := by
  obtain ⟨node, hnode, heq⟩ := Option.map_eq_some_iff.1 hterm
  rw [Prod.mk.injEq] at heq
  unfold TermClasses.classOf?
  cases hfirst : classes.nodes.findIdx? fun node => node.symbol == symbol &&
      node.arguments.map classes.representative == arguments.map classes.representative with
  | none =>
    have hfails := Array.findIdx?_eq_none_iff.1 hfirst node (Array.mem_of_getElem? hnode)
    rw [heq.1, heq.2, beq_self_eq_true, beq_self_eq_true] at hfails
    exact absurd hfails (by decide)
  | some first =>
    obtain ⟨hlt, hfits, -⟩ := Array.findIdx?_eq_some_iff_getElem.1 hfirst
    rw [Bool.and_eq_true, beq_iff_eq, beq_iff_eq] at hfits
    have hterm' : classes.term? first = some (symbol, classes.nodes[first].arguments) := by
      rw [term?, Array.getElem?_eq_getElem hlt, Option.map_some, hfits.1]
    have hcongruent := congruent_iff.2 ⟨symbol, _, _, hterm', hterm, hfits.2⟩
    rw [Option.map_some, same_iff.1 (h first id hcongruent)]

theorem Closed.classOf?_of_nodeOf? (h : classes.Closed)
    (hnode : classes.nodeOf? symbol arguments = some id) :
    classes.classOf? symbol (arguments.map classes.representative) =
      some (classes.representative id) :=
  h.classOf? (term?_of_nodeOf? hnode)

mutual

theorem Closed.value (h : classes.Closed) {id : NodeId} (t : Term)
    (hid : classes.idOf? t = some id) :
    classes.interpretation.value t = classes.representative id := by
  cases t with
  | var name => exact congrArg (·.getD 0) (h.classOf?_of_nodeOf? hid)
  | const name => exact congrArg (·.getD 0) (h.classOf?_of_nodeOf? hid)
  | app function ts =>
    obtain ⟨ids, hids, hnode⟩ := idOf?_app_eq_some.1 hid
    rw [Structure.value, Closed.values h ts hids]
    exact congrArg (·.getD 0) (h.classOf?_of_nodeOf? hnode)

theorem Closed.values (h : classes.Closed) {ids : List NodeId} (ts : List Term)
    (hids : classes.idsOf? ts = some ids) :
    classes.interpretation.values ts = ids.map classes.representative := by
  cases ts with
  | nil =>
    cases hids
    rfl
  | cons t ts =>
    obtain ⟨id, rest, hid, hrest, rfl⟩ := idsOf?_cons_eq_some.1 hids
    rw [Structure.values, Closed.value h t hid, Closed.values h ts hrest, List.map_cons]

end

theorem Closed.truth (h : classes.Closed) (quantified : Formula → Prop) {formula : Formula}
    {sides : NodeId × NodeId} (hsides : classes.HasSides formula sides) :
    classes.interpretation.truth quantified formula ↔ classes.same sides.1 sides.2 = true := by
  rw [same_iff]
  cases hsides with
  | equality hleft hright => rw [Structure.truth, h.value _ hleft, h.value _ hright]
  | relation hids hrelation htruth =>
    rw [Structure.truth, h.values _ hids]
    change classes.classOf? _ _ = classes.classOf? _ _ ↔ _
    rw [h.classOf?_of_nodeOf? hrelation, ← @List.map_nil _ _ classes.representative,
      h.classOf?_of_nodeOf? htruth, Option.some.injEq]

end Satisfiability.Equality.TermClasses
