import Satisfiability.Proofs.Equality.Classes

/-!
# Nodes of terms

A term gets the node that its symbol and the nodes of its arguments have, or a new one. A new node
is alone in its class, and it becomes a parent of the classes of its arguments, so classes stay
valid at whatever time a term is interned (`Valid.intern`). The node of a term can be found again
ever after (`Interned.idOf?`).
-/

namespace Satisfiability.Equality.TermClasses

open Satisfiability.FirstOrder (Term)

variable {classes classes' : TermClasses} {a b id : NodeId} {symbol : String}
  {arguments : List NodeId}

structure Interned (classes classes' : TermClasses) : Prop where
  valid : classes'.Valid
  size : classes.size ≤ classes'.size
  term : ∀ id term, classes.term? id = some term → classes'.term? id = some term
  representative : ∀ id, classes'.representative id = classes.representative id
  log : classes'.log = classes.log
  checkpoints : classes'.checkpoints = classes.checkpoints

theorem Valid.interned (h : classes.Valid) : classes.Interned classes :=
  ⟨h, Nat.le_refl _, fun _ _ => id, fun _ => rfl, rfl, rfl⟩

theorem Interned.trans {classes'' : TermClasses} (h : classes.Interned classes')
    (h' : classes'.Interned classes'') : classes.Interned classes'' :=
  ⟨h'.valid, Nat.le_trans h.size h'.size, fun id term hid => h'.term id term (h.term id term hid),
    fun id => (h'.representative id).trans (h.representative id), h'.log.trans h.log,
    h'.checkpoints.trans h.checkpoints⟩

/-! ## The node of a symbol and arguments -/

theorem term?_of_nodeOf? (h : classes.nodeOf? symbol arguments = some id) :
    classes.term? id = some (symbol, arguments) := by
  obtain ⟨hid, hnode, -⟩ := Array.findIdx?_eq_some_iff_getElem.1 h
  rw [Bool.and_eq_true, beq_iff_eq, beq_iff_eq] at hnode
  rw [term?, Array.getElem?_eq_getElem hid, Option.map_some, hnode.1, hnode.2]

theorem nodeOf?_ne_none (h : classes.term? id = some (symbol, arguments)) :
    classes.nodeOf? symbol arguments ≠ none := by
  obtain ⟨node, hnode, hterm⟩ := Option.map_eq_some_iff.1 h
  intro hnone
  have hfails := Array.findIdx?_eq_none_iff.1 hnone node (Array.mem_of_getElem? hnode)
  rw [Prod.mk.injEq] at hterm
  rw [hterm.1, hterm.2, beq_self_eq_true, beq_self_eq_true] at hfails
  exact absurd hfails (by decide)

theorem Valid.nodeOf?_eq_some (h : classes.Valid) :
    classes.nodeOf? symbol arguments = some id ↔ classes.term? id = some (symbol, arguments) := by
  refine ⟨term?_of_nodeOf?, fun hid => ?_⟩
  obtain ⟨other, hother⟩ := Option.ne_none_iff_exists'.1 (nodeOf?_ne_none hid)
  rw [hother, h.distinct other id _ (term?_of_nodeOf? hother) hid]

/-! ## New nodes -/

def addParents (classes : TermClasses) (parent : NodeId) (roots : List NodeId) : TermClasses :=
  { classes with
    nodes := classes.nodes.mapIdx fun id node => if id ∈ roots then
      { node with parents := node.parents.insert parent } else node }

/-- The classes with one more node, which is alone in its class and a parent on some roots. -/
def grow (classes : TermClasses) (symbol : String) (arguments roots : List NodeId) : TermClasses :=
  { classes.addParents classes.size roots with
    nodes := (classes.addParents classes.size roots).nodes.push
      { symbol, arguments, pointer := classes.size } }

theorem ext_nodes (hnodes : ∀ id : NodeId, classes'.nodes[id]? = classes.nodes[id]?)
    (hlog : classes'.log = classes.log) (hcheckpoints : classes'.checkpoints = classes.checkpoints) :
    classes' = classes := by
  obtain ⟨nodes, log, checkpoints⟩ := classes
  cases hlog
  cases hcheckpoints
  exact congrArg (TermClasses.mk · _ _) (Array.ext_getElem? hnodes)

section grow

variable {roots : List NodeId} {parent root : NodeId}

theorem getElem?_addParents : (classes.addParents parent roots).nodes[id]? =
    (classes.nodes[id]?).map fun node => if id ∈ roots then
      { node with parents := node.parents.insert parent } else node :=
  Array.getElem?_mapIdx

theorem size_addParents : (classes.addParents parent roots).size = classes.size :=
  Array.size_mapIdx

theorem getElem?_grow : (classes.grow symbol arguments roots).nodes[id]? =
    if id = classes.size then some { symbol, arguments, pointer := classes.size }
    else (classes.addParents classes.size roots).nodes[id]? := by
  have hsize : (classes.addParents classes.size roots).nodes.size = classes.size := size_addParents
  rw [grow, Array.getElem?_push, hsize]

theorem size_grow : (classes.grow symbol arguments roots).size = classes.size + 1 :=
  (Array.size_push _).trans (congrArg Nat.succ size_addParents)

theorem map_getElem?_grow {α : Type} (f : TermNode → α)
    (hf : ∀ node parents, f { node with parents := parents } = f node) :
    ((classes.grow symbol arguments roots).nodes[id]?).map f = if id = classes.size then
      some (f { symbol, arguments, pointer := classes.size }) else (classes.nodes[id]?).map f := by
  rw [getElem?_grow]
  split
  · rfl
  · rw [getElem?_addParents, Option.map_map]
    refine congrArg (Option.map · _) (funext fun node => ?_)
    rw [Function.comp_apply]
    split
    · rw [hf]
    · rfl

theorem term?_grow : (classes.grow symbol arguments roots).term? id =
    if id = classes.size then some (symbol, arguments) else classes.term? id :=
  map_getElem?_grow _ fun _ _ => rfl

theorem term?_grow_of_term? {term : String × List NodeId} (h : classes.term? id = some term) :
    (classes.grow symbol arguments roots).term? id = some term := by
  rw [term?_grow, if_neg (Nat.ne_of_lt (lt_size_of_term? h)), h]

theorem pointer?_grow : (classes.grow symbol arguments roots).pointer? id =
    if id = classes.size then some classes.size else classes.pointer? id :=
  map_getElem?_grow _ fun _ _ => rfl

theorem mem_parents_grow (hroot : root < classes.size) :
    id ∈ (classes.grow symbol arguments roots).parents root ↔
      id = classes.size ∧ root ∈ roots ∨ id ∈ classes.parents root := by
  rw [parents_eq, getElem?_grow, if_neg (Nat.ne_of_lt hroot), getElem?_addParents, parents_eq,
    Array.getElem?_eq_getElem hroot, Option.map_some, Option.map_some, Option.getD_some,
    Option.map_some, Option.getD_some]
  split <;> simp [*]

theorem Forest.grow (h : classes.Forest) : (classes.grow symbol arguments roots).Forest ∧
    ∀ id, (classes.grow symbol arguments roots).representative id = classes.representative id :=
  h.push size_grow fun _ => pointer?_grow

theorem Forest.isParent_grow (h : classes.Forest) :
    (classes.grow symbol arguments roots).IsParent id root ↔
      id = classes.size ∧ (∃ argument ∈ arguments, classes.representative argument = root) ∨
        classes.IsParent id root := by
  unfold IsParent
  simp only [h.grow.2, term?_grow]
  by_cases heq : id = classes.size
  · have hold : classes.term? id = none := by
      rw [term?, Array.getElem?_eq_none (Nat.le_of_eq heq.symm), Option.map_none]
    simp [heq, heq ▸ hold]
  · simp [heq]

/-- The parents stay kept exactly if the new node is put on the representatives of its arguments. -/
theorem Valid.parentsKept_grow (h : classes.Valid)
    (harguments : ∀ argument ∈ arguments, argument < classes.size) :
    (classes.grow symbol arguments roots).ParentsKept ↔ ∀ root, classes.IsRoot root →
      (root ∈ roots ↔ ∃ argument ∈ arguments, classes.representative argument = root) := by
  have hroot : ∀ root, (classes.grow symbol arguments roots).IsRoot root ↔
      root = classes.size ∨ classes.IsRoot root := by
    intro root
    rw [IsRoot, pointer?_grow, IsRoot]
    split <;> simp_all
  constructor
  · intro hkept root hold
    have hnew := hkept root ((hroot root).2 (Or.inr hold)) classes.size
    -- until it is made, the node is no parent
    have hnot : ¬ classes.IsParent classes.size root := fun hparent => Nat.lt_irrefl _ hparent.lt_size
    rw [mem_parents_grow hold.lt_size, h.forest.isParent_grow, h.parents root hold] at hnew
    simpa [hnot] using hnew
  · intro hroots root hgrown id
    rcases (hroot root).1 hgrown with rfl | hold
    · -- the new node is no argument: arguments are old nodes
      have hnone : ∀ argument < classes.size, classes.representative argument ≠ classes.size :=
        fun argument hlt => Nat.ne_of_lt (h.forest.representative_lt hlt)
      rw [parents_eq, getElem?_grow, if_pos rfl, h.forest.isParent_grow]
      refine iff_of_false IndexSet.not_mem_empty ?_
      rintro (⟨_, argument, hmem, heq⟩ | ⟨_, _, hterm, argument, hmem, heq⟩)
      · exact hnone argument (harguments argument hmem) heq
      · exact hnone argument (h.arguments _ _ _ hterm argument hmem) heq
    · rw [mem_parents_grow hold.lt_size, h.forest.isParent_grow, hroots root hold,
        h.parents root hold]

theorem Valid.grow (h : classes.Valid)
    (harguments : ∀ argument ∈ arguments, argument < classes.size)
    (hnew : ∀ id, classes.term? id ≠ some (symbol, arguments)) :
    (classes.grow symbol arguments (arguments.map classes.representative)).Valid := by
  refine ⟨h.forest.grow.1, fun a b term ha hb => ?_,
    fun id symbol' arguments' hid argument hmem => ?_,
    (h.parentsKept_grow harguments).2 fun root _ => List.mem_map⟩
  · rw [term?_grow] at ha hb
    split at ha <;> split at hb
    · rename_i heq heq'
      exact heq.trans heq'.symm
    · exact absurd (hb.trans ha.symm) (hnew b)
    · exact absurd (ha.trans hb.symm) (hnew a)
    · exact h.distinct a b term ha hb
  · rw [term?_grow] at hid
    rw [size_grow]
    split at hid
    · cases hid
      exact Nat.lt_succ_of_lt (harguments argument hmem)
    · exact Nat.lt_succ_of_lt (h.arguments id symbol' arguments' hid argument hmem)

theorem insert_insert (set : IndexSet) (n : Nat) : (set.insert n).insert n = set.insert n :=
  IndexSet.ext_mem fun x => by simp

theorem Forest.addParent (h : classes.Forest) (parent argument : NodeId) :
    (addParent parent classes argument).Forest ∧
      ∀ id, (addParent parent classes argument).representative id = classes.representative id :=
  h.congr (size_modify _) fun _ => map_getElem?_modify fun _ => rfl

theorem Forest.foldl_addParent (h : classes.Forest) :
    arguments.foldl (TermClasses.addParent parent) classes =
      classes.addParents parent (arguments.map classes.representative) := by
  induction arguments generalizing classes with
  | nil =>
    refine ext_nodes (fun id => ?_) rfl rfl
    simp [getElem?_addParents]
  | cons argument rest ih =>
    obtain ⟨hforest, hrepresentative⟩ := h.addParent parent argument
    rw [List.foldl_cons, ih hforest, funext hrepresentative, List.map_cons]
    refine ext_nodes (fun id => ?_) rfl rfl
    rw [getElem?_addParents, getElem?_addParents, TermClasses.addParent, getElem?_modify]
    by_cases hid : classes.representative argument = id
    · rw [if_pos hid, Option.map_map]
      refine congrArg (Option.map · _) (funext fun node => ?_)
      rw [Function.comp_apply, hid, if_pos List.mem_cons_self]
      split
      · rw [insert_insert]
      · rfl
    · simp only [if_neg hid, List.mem_cons, Ne.symm hid, false_or]

theorem Forest.internNode_of_none (h : classes.Forest)
    (hnone : classes.nodeOf? symbol arguments = none) :
    classes.internNode symbol arguments = (classes.size,
      classes.grow symbol arguments (arguments.map classes.representative)) := by
  rw [internNode, hnone]
  dsimp only
  rw [h.foldl_addParent]
  rfl

end grow

theorem Valid.internNode (h : classes.Valid) (symbol : String)
    (harguments : ∀ argument ∈ arguments, argument < classes.size) :
    classes.Interned (classes.internNode symbol arguments).2 ∧
      (classes.internNode symbol arguments).2.term? (classes.internNode symbol arguments).1 =
        some (symbol, arguments) := by
  cases hnode : classes.nodeOf? symbol arguments with
  | some id =>
    rw [TermClasses.internNode, hnode]
    exact ⟨h.interned, term?_of_nodeOf? hnode⟩
  | none =>
    rw [h.forest.internNode_of_none hnode]
    have hnew : ∀ id, classes.term? id ≠ some (symbol, arguments) :=
      fun id hid => nodeOf?_ne_none hid hnode
    refine ⟨⟨h.grow harguments hnew, ?_, fun id term => term?_grow_of_term?, h.forest.grow.2, rfl,
      rfl⟩, ?_⟩
    · rw [size_grow]
      exact Nat.le_succ _
    · rw [term?_grow, if_pos rfl]

/-! ## The node of a term -/

theorem idOf?_app_eq_some {function : String} {ts : List Term} :
    classes.idOf? (.app function ts) = some id ↔
      ∃ ids, classes.idsOf? ts = some ids ∧ classes.nodeOf? function ids = some id := by
  rw [idOf?]
  cases classes.idsOf? ts <;> simp

theorem idsOf?_cons_eq_some {t : Term} {ts : List Term} {ids : List NodeId} :
    classes.idsOf? (t :: ts) = some ids ↔ ∃ id rest, classes.idOf? t = some id ∧
      classes.idsOf? ts = some rest ∧ id :: rest = ids := by
  rw [idsOf?]
  cases classes.idOf? t <;> cases classes.idsOf? ts <;> simp

theorem lt_size_of_idOf? {t : Term} (h : classes.idOf? t = some id) : id < classes.size := by
  cases t with
  | var name => exact lt_size_of_term? (term?_of_nodeOf? h)
  | const name => exact lt_size_of_term? (term?_of_nodeOf? h)
  | app function ts =>
    obtain ⟨ids, _, hnode⟩ := idOf?_app_eq_some.1 h
    exact lt_size_of_term? (term?_of_nodeOf? hnode)

theorem lt_size_of_idsOf? {ts : List Term} {ids : List NodeId} (h : classes.idsOf? ts = some ids) :
    ∀ id ∈ ids, id < classes.size := by
  induction ts generalizing ids with
  | nil =>
    cases h
    simp
  | cons t ts ih =>
    obtain ⟨first, rest, hfirst, hrest, rfl⟩ := idsOf?_cons_eq_some.1 h
    exact List.forall_mem_cons.2 ⟨lt_size_of_idOf? hfirst, ih hrest⟩

theorem Valid.nodeOf?_of_term (h : classes'.Valid)
    (hterm : ∀ id term, classes.term? id = some term → classes'.term? id = some term)
    (hnode : classes.nodeOf? symbol arguments = some id) :
    classes'.nodeOf? symbol arguments = some id :=
  h.nodeOf?_eq_some.2 (hterm id _ (term?_of_nodeOf? hnode))

mutual

theorem Valid.idOf?_of_term (h : classes'.Valid)
    (hterm : ∀ id term, classes.term? id = some term → classes'.term? id = some term)
    {id : NodeId} (t : Term) (hid : classes.idOf? t = some id) :
    classes'.idOf? t = some id := by
  cases t with
  | var name => exact h.nodeOf?_of_term hterm hid
  | const name => exact h.nodeOf?_of_term hterm hid
  | app function ts =>
    obtain ⟨ids, hids, hnode⟩ := idOf?_app_eq_some.1 hid
    exact idOf?_app_eq_some.2
      ⟨ids, Valid.idsOf?_of_term h hterm ts hids, h.nodeOf?_of_term hterm hnode⟩

theorem Valid.idsOf?_of_term (h : classes'.Valid)
    (hterm : ∀ id term, classes.term? id = some term → classes'.term? id = some term)
    {ids : List NodeId} (ts : List Term)
    (hids : classes.idsOf? ts = some ids) : classes'.idsOf? ts = some ids := by
  cases ts with
  | nil => exact hids
  | cons t ts =>
    obtain ⟨id, rest, hid, hrest, heq⟩ := idsOf?_cons_eq_some.1 hids
    exact idsOf?_cons_eq_some.2
      ⟨id, rest, Valid.idOf?_of_term h hterm t hid, Valid.idsOf?_of_term h hterm ts hrest, heq⟩

end

theorem Interned.idOf? (h : classes.Interned classes') {t : Term}
    (hid : classes.idOf? t = some id) : classes'.idOf? t = some id :=
  h.valid.idOf?_of_term h.term t hid

theorem Interned.idsOf? (h : classes.Interned classes') {ts : List Term} {ids : List NodeId}
    (hids : classes.idsOf? ts = some ids) : classes'.idsOf? ts = some ids :=
  h.valid.idsOf?_of_term h.term ts hids

theorem intern_app (function : String) (ts : List Term) : classes.intern (.app function ts) =
    (classes.internAll ts).2.internNode function (classes.internAll ts).1 := rfl

theorem internAll_cons (t : Term) (ts : List Term) : classes.internAll (t :: ts) =
    ((classes.intern t).1 :: ((classes.intern t).2.internAll ts).1,
      ((classes.intern t).2.internAll ts).2) := rfl

mutual

/-- The number returned for a term is that of its node. -/
theorem Valid.intern {classes : TermClasses} (h : classes.Valid) (t : Term) :
    classes.Interned (classes.intern t).2 ∧
      (classes.intern t).2.idOf? t = some (classes.intern t).1 := by
  have hname : ∀ name, classes.Interned (classes.internNode name []).2 ∧
      (classes.internNode name []).2.nodeOf? name [] = some (classes.internNode name []).1 := by
    intro name
    obtain ⟨hinterned, hterm⟩ := h.internNode name (List.forall_mem_nil _)
    exact ⟨hinterned, hinterned.valid.nodeOf?_eq_some.2 hterm⟩
  cases t with
  | var name => exact hname name
  | const name => exact hname name
  | app function ts =>
    obtain ⟨hall, hids⟩ := Valid.internAll h ts
    obtain ⟨hinterned, hterm⟩ := hall.valid.internNode function (lt_size_of_idsOf? hids)
    rw [intern_app]
    exact ⟨hall.trans hinterned, idOf?_app_eq_some.2
      ⟨_, hinterned.idsOf? hids, hinterned.valid.nodeOf?_eq_some.2 hterm⟩⟩

theorem Valid.internAll {classes : TermClasses} (h : classes.Valid) (ts : List Term) :
    classes.Interned (classes.internAll ts).2 ∧
      (classes.internAll ts).2.idsOf? ts = some (classes.internAll ts).1 := by
  cases ts with
  | nil => exact ⟨h.interned, rfl⟩
  | cons t ts =>
    obtain ⟨hfirst, hid⟩ := Valid.intern h t
    obtain ⟨hrest, hids⟩ := Valid.internAll hfirst.valid ts
    rw [internAll_cons]
    exact ⟨hfirst.trans hrest,
      idsOf?_cons_eq_some.2 ⟨_, _, hrest.idOf? hid, hids, rfl⟩⟩

end

/-! ## No nodes, and nothing merged -/

theorem valid_empty : Valid {} := by
  have hnone : ∀ id, pointer? {} id = none := fun _ => rfl
  refine ⟨⟨fun id next h => ?_, fun _ => 0, fun _ _ => rfl, fun id next h => ?_,
    fun _ => Nat.zero_le _⟩, fun _ _ _ h => ?_, fun _ _ _ h => ?_, fun root h => ?_⟩
  · exact absurd h (by simp [hnone])
  · exact absurd h (by simp [hnone])
  · exact absurd h (by simp [term?])
  · exact absurd h (by simp [term?])
  · exact absurd h (by simp [IsRoot, hnone])

theorem Interned.representative_eq_self (h : Interned {} classes) (id : NodeId) :
    classes.representative id = id :=
  (h.representative id).trans (representative_of_le (Nat.zero_le id))

theorem Valid.closed_of_representative (h : classes.Valid)
    (hrepresentative : ∀ id, classes.representative id = id) : classes.Closed := by
  intro a b hab
  obtain ⟨symbol, xs, ys, ha, hb, hmap⟩ := congruent_iff.1 hab
  have hid : classes.representative = id := funext hrepresentative
  rw [hid, List.map_id, List.map_id] at hmap
  rw [same_iff, h.distinct a b _ (hmap ▸ ha) hb]

end Satisfiability.Equality.TermClasses
