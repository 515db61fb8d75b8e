import Mathlib.Data.List.Nodup
import Mathlib.Data.List.ProdSigma
import Satisfiability.Proofs.Equality.Forest

/-!
# Congruence classes

On the representative of each class the parents of the class are kept (`Valid`). That is enough for
a merge to end with classes that are closed under congruence (`merge_spec`): two nodes that have
become congruent are parents of the two classes merged, so all such pairs wait to be merged in turn.
A merge ends before its budget does, since each merge of two classes leaves one class less
(`Valid.merge_ends`). What a merge has changed is undone to the last field (`Merged`).
-/

namespace Satisfiability.Equality.TermClasses

variable {classes classes' : TermClasses} {a b id root absorbed : NodeId}

def term? (classes : TermClasses) (id : NodeId) : Option (String × List NodeId) :=
  (classes.nodes[id]?).map fun node => (node.symbol, node.arguments)

def IsParent (classes : TermClasses) (id root : NodeId) : Prop :=
  ∃ symbol arguments, classes.term? id = some (symbol, arguments) ∧
    ∃ argument ∈ arguments, classes.representative argument = root

structure SameTerms (classes classes' : TermClasses) : Prop where
  size : classes'.size = classes.size
  term : ∀ id, classes'.term? id = classes.term? id

/-- Pointers lead to roots, each term has one node, arguments are nodes, and the parents of each
class are kept. -/
structure Valid (classes : TermClasses) : Prop where
  forest : classes.Forest
  distinct : ∀ a b term, classes.term? a = some term → classes.term? b = some term → a = b
  arguments : ∀ id symbol arguments, classes.term? id = some (symbol, arguments) →
    ∀ argument ∈ arguments, argument < classes.size
  parents : ∀ root, classes.IsRoot root → ∀ id, id ∈ classes.parents root ↔ classes.IsParent id root

/-- On each root are kept exactly the nodes with an argument in its class. -/
def ParentsKept (classes : TermClasses) : Prop :=
  ∀ root, classes.IsRoot root → ∀ id, id ∈ classes.parents root ↔ classes.IsParent id root

def Closed (classes : TermClasses) : Prop :=
  ∀ a b, classes.congruent a b = true → classes.same a b = true

theorem SameTerms.refl (classes : TermClasses) : classes.SameTerms classes := ⟨rfl, fun _ => rfl⟩

theorem SameTerms.symm (h : classes.SameTerms classes') : classes'.SameTerms classes :=
  ⟨h.size.symm, fun id => (h.term id).symm⟩

theorem SameTerms.trans {classes'' : TermClasses} (h : classes.SameTerms classes')
    (h' : classes'.SameTerms classes'') : classes.SameTerms classes'' :=
  ⟨h'.size.trans h.size, fun id => (h'.term id).trans (h.term id)⟩

theorem same_iff : classes.same a b = true ↔
    classes.representative a = classes.representative b := by
  simp [same]

/-- Lists have the same classes exactly if they have one length and the same classes pair by pair.
-/
theorem map_representative_eq_iff {xs ys : List NodeId} :
    xs.map classes.representative = ys.map classes.representative ↔
      xs.length = ys.length ∧ ∀ pair ∈ xs.zip ys, classes.same pair.1 pair.2 = true := by
  induction xs generalizing ys with
  | nil => cases ys <;> simp
  | cons x xs ih =>
    cases ys with
    | nil => simp
    | cons y ys =>
      rw [List.map_cons, List.map_cons, List.cons.injEq, ih, ← same_iff]
      simp only [List.length_cons, Nat.add_right_cancel_iff, List.zip_cons_cons, List.mem_cons,
        forall_eq_or_imp]
      exact and_left_comm

theorem congruent_iff : classes.congruent a b = true ↔ ∃ symbol xs ys,
    classes.term? a = some (symbol, xs) ∧ classes.term? b = some (symbol, ys) ∧
      xs.map classes.representative = ys.map classes.representative := by
  simp only [map_representative_eq_iff]
  unfold congruent term?
  cases classes.nodes[a]? with
  | none => simp
  | some m =>
    cases classes.nodes[b]? with
    | none => simp
    | some n =>
      simp only [Bool.and_eq_true, beq_iff_eq, List.all_eq_true, and_assoc, Option.map_some,
        Option.some.injEq, Prod.mk.injEq]
      constructor
      · exact fun h => ⟨m.symbol, m.arguments, n.arguments, rfl, rfl, h.1.symm, rfl, h.2⟩
      · rintro ⟨_, _, _, rfl, rfl, hsymbol, rfl, harguments⟩
        exact ⟨hsymbol.symm, harguments⟩

theorem lt_size_of_term? {term : String × List NodeId} (h : classes.term? id = some term) :
    id < classes.size := by
  obtain ⟨_, hnode, _⟩ := Option.map_eq_some_iff.1 h
  exact (Array.getElem?_eq_some_iff.1 hnode).1

theorem IsParent.lt_size (h : classes.IsParent id root) : id < classes.size := by
  obtain ⟨_, _, hterm, _⟩ := h
  exact lt_size_of_term? hterm

theorem Valid.lt_size_of_mem_parents (h : classes.Valid) (hroot : classes.IsRoot root)
    (hmem : id ∈ classes.parents root) : id < classes.size :=
  ((h.parents root hroot id).1 hmem).lt_size

section congr

variable (hnodes : classes'.nodes = classes.nodes)

include hnodes

theorem term?_congr (id : NodeId) : classes'.term? id = classes.term? id := by
  rw [term?, hnodes, term?]

theorem representative_congr (id : NodeId) :
    classes'.representative id = classes.representative id := by
  have hchase : ∀ steps id, classes'.chase steps id = classes.chase steps id := by
    intro steps
    induction steps with
    | zero => exact fun _ => rfl
    | succ steps ih =>
      intro id
      rw [chase, chase, hnodes]
      simp only [ih]
  rw [representative, representative, size, hnodes, hchase]
  rfl

theorem Valid.congr (h : classes.Valid) : classes'.Valid := by
  have hpointer : ∀ id, classes'.pointer? id = classes.pointer? id := fun id => by
    rw [pointer?, hnodes, pointer?]
  have hparents : ∀ id, classes'.parents id = classes.parents id := fun id => by
    rw [TermClasses.parents, hnodes, TermClasses.parents]
  have hsize : classes'.size = classes.size := congrArg Array.size hnodes
  refine ⟨(h.forest.congr hsize hpointer).1, ?_, ?_, ?_⟩
  · simp only [term?_congr hnodes]
    exact h.distinct
  · simp only [term?_congr hnodes, hsize]
    exact h.arguments
  · simp only [IsRoot, IsParent, hpointer, hparents, term?_congr hnodes,
      representative_congr hnodes]
    exact h.parents

theorem same_congr (a b : NodeId) : classes'.same a b = classes.same a b := by
  rw [same, representative_congr hnodes, representative_congr hnodes, same]

theorem Closed.congr (h : classes.Closed) : classes'.Closed := by
  intro a b hab
  obtain ⟨symbol, xs, ys, ha, hb, hmap⟩ := congruent_iff.1 hab
  rw [term?_congr hnodes] at ha hb
  have hrepresentative : classes'.representative = classes.representative :=
    funext (representative_congr hnodes)
  rw [same_congr hnodes]
  rw [hrepresentative] at hmap
  exact h a b (congruent_iff.2 ⟨symbol, xs, ys, ha, hb, hmap⟩)

end congr

/-! ## Nodes changed -/

theorem getElem?_modify (f : TermNode → TermNode) : (classes.modify a f).nodes[b]? =
    if a = b then (classes.nodes[b]?).map f else classes.nodes[b]? := by
  rw [modify, Array.getElem?_modify]

theorem size_modify (f : TermNode → TermNode) : (classes.modify a f).size = classes.size := by
  simp [modify, size]

theorem map_getElem?_modify {α : Type} {f : TermNode → TermNode} {g : TermNode → α}
    (hf : ∀ node, g (f node) = g node) :
    ((classes.modify a f).nodes[b]?).map g = (classes.nodes[b]?).map g := by
  rw [getElem?_modify]
  split
  · rw [Option.map_map]
    exact congrArg (Option.map · _) (funext hf)
  · rfl

theorem SameTerms.modify {f : TermNode → TermNode} (h : classes.SameTerms classes')
    (hf : ∀ node, ((f node).symbol, (f node).arguments) = (node.symbol, node.arguments)) :
    classes.SameTerms (classes'.modify id f) :=
  ⟨(size_modify f).trans h.size, fun other => (map_getElem?_modify hf).trans (h.term other)⟩

theorem parents_eq : classes.parents id =
    ((classes.nodes[id]?).map TermNode.parents).getD {} := by
  unfold parents
  cases classes.nodes[id]? <;> rfl

theorem sameTerms_absorb : classes.SameTerms (classes.absorb absorbed root) := by
  have hmodified : classes.SameTerms ((classes.modify absorbed fun node =>
      { node with pointer := root }).modify root fun node =>
        { node with parents := node.parents.insertAll (classes.parents absorbed).toList }) :=
    ((SameTerms.refl classes).modify fun _ => by rfl).modify fun _ => by rfl
  exact ⟨hmodified.size, hmodified.term⟩

section absorb

variable (habsorbed : absorbed < classes.size) (hroot : root < classes.size)
  (hne : absorbed ≠ root)

include hne

theorem getElem?_absorb : (classes.absorb absorbed root).nodes[id]? =
    if id = absorbed then (classes.nodes[id]?).map fun node => { node with pointer := root }
    else if id = root then (classes.nodes[id]?).map fun node =>
      { node with parents := node.parents.insertAll (classes.parents absorbed).toList }
    else classes.nodes[id]? := by
  simp only [absorb, getElem?_modify]
  by_cases hid : id = absorbed
  · rw [if_pos hid, if_neg (fun heq => hne (hid.symm.trans heq.symm)), if_pos hid.symm]
  · rw [if_neg hid]
    by_cases hid' : id = root
    · rw [if_pos hid', if_pos hid'.symm, if_neg (fun heq => hid heq.symm)]
    · rw [if_neg hid', if_neg (fun heq => hid' heq.symm), if_neg (fun heq => hid heq.symm)]

include habsorbed in
theorem pointer?_absorb : (classes.absorb absorbed root).pointer? id =
    if id = absorbed then some root else classes.pointer? id := by
  unfold pointer?
  rw [getElem?_absorb hne]
  split
  · rename_i heq
    rw [heq, Array.getElem?_eq_getElem habsorbed]
    rfl
  · split
    · rw [Option.map_map]
      rfl
    · rfl

include hroot in
theorem parents_absorb : (classes.absorb absorbed root).parents id =
    if id = root then (classes.parents root).insertAll (classes.parents absorbed).toList
    else classes.parents id := by
  rw [parents_eq, getElem?_absorb hne]
  by_cases hid : id = root
  · rw [if_neg (fun heq => hne (heq.symm.trans hid)), if_pos hid, if_pos hid, hid,
      @parents_eq classes root, Array.getElem?_eq_getElem hroot]
    rfl
  · rw [if_neg hid, if_neg hid, parents_eq]
    split
    · rw [Option.map_map]
      rfl
    · rfl

end absorb

theorem Valid.absorb (h : classes.Valid) (habsorbed : classes.IsRoot absorbed)
    (hroot : classes.IsRoot root) (hne : absorbed ≠ root) :
    (classes.absorb absorbed root).Valid ∧ ∀ id, (classes.absorb absorbed root).representative id =
      if classes.representative id = absorbed then root else classes.representative id := by
  have hterms : classes.SameTerms (classes.absorb absorbed root) := sameTerms_absorb
  obtain ⟨hforest, hrepresentative⟩ := h.forest.linked habsorbed hroot hne hterms.size
    fun _ => pointer?_absorb habsorbed.lt_size hne
  refine ⟨⟨hforest, ?_, ?_, ?_⟩, hrepresentative⟩
  · intro a b term ha hb
    rw [hterms.term] at ha hb
    exact h.distinct a b term ha hb
  · intro id symbol arguments hid argument hmem
    rw [hterms.term] at hid
    rw [hterms.size]
    exact h.arguments id symbol arguments hid argument hmem
  · intro top htop id
    have hother : top ≠ absorbed := by
      rintro rfl
      rw [IsRoot, pointer?_absorb habsorbed.lt_size hne, if_pos rfl] at htop
      exact hne (Option.some.inj htop).symm
    have htop' : classes.IsRoot top := by
      rw [IsRoot, pointer?_absorb habsorbed.lt_size hne, if_neg hother] at htop
      exact htop
    -- the parents of the absorbed class become parents of the other
    have hparent : (classes.absorb absorbed root).IsParent id top ↔ classes.IsParent id top ∨
        (top = root ∧ classes.IsParent id absorbed) := by
      unfold IsParent
      simp only [hterms.term, hrepresentative]
      constructor
      · rintro ⟨symbol, arguments, hid, argument, hmem, heq⟩
        split at heq
        · rename_i habs
          exact Or.inr ⟨heq.symm, symbol, arguments, hid, argument, hmem, habs⟩
        · exact Or.inl ⟨symbol, arguments, hid, argument, hmem, heq⟩
      · rintro (⟨symbol, arguments, hid, argument, hmem, heq⟩ |
          ⟨htoproot, symbol, arguments, hid, argument, hmem, heq⟩)
        · exact ⟨symbol, arguments, hid, argument, hmem, by rw [heq, if_neg hother]⟩
        · exact ⟨symbol, arguments, hid, argument, hmem, by rw [if_pos heq, htoproot]⟩
    rw [parents_absorb hroot.lt_size hne, hparent]
    by_cases heq : top = root
    · rw [if_pos heq, IndexSet.mem_insertAll, IndexSet.mem_toList, h.parents absorbed habsorbed,
        ← heq, h.parents top htop', or_comm]
      simp
    · rw [if_neg heq, h.parents top htop']
      simp [heq]

/-! ## Undoing -/

theorem nodes_foldl_undo (log : List Merge) (h : classes'.nodes = classes.nodes) :
    (log.foldl undo classes').nodes = (log.foldl undo classes).nodes := by
  induction log generalizing classes classes' with
  | nil => exact h
  | cons merge rest ih =>
    refine ih ?_
    simp only [undo, modify, h]

theorem mem_foldl_erase {set : IndexSet} {indices : List Nat} {x : Nat} :
    x ∈ indices.foldl IndexSet.erase set ↔ x ∈ set ∧ x ∉ indices := by
  induction indices generalizing set with
  | nil => simp
  | cons n rest ih =>
    rw [List.foldl_cons, ih]
    simp [and_assoc]

theorem nodes_undo_absorb (habsorbed : classes.IsRoot absorbed) (hroot : root < classes.size)
    (hne : absorbed ≠ root) : ((classes.absorb absorbed root).undo ⟨absorbed, root,
      (classes.parents absorbed).toList.filter fun parent =>
        !(classes.parents root).toList.contains parent⟩).nodes = classes.nodes := by
  refine Array.ext_getElem? fun id => ?_
  simp only [undo, getElem?_modify, getElem?_absorb hne]
  by_cases hid : id = root
  · have hnode := Array.getElem?_eq_getElem hroot
    have hparents : (classes.parents root) = (classes.nodes[root]).parents := by
      rw [parents_eq, hnode]
      rfl
    subst hid
    rw [if_pos rfl, if_neg hne, if_neg (Ne.symm hne), if_pos rfl, hnode]
    simp only [Option.map_some, Option.some.injEq]
    -- the parents taken over are those erased, apart from the ones both had
    have hset : ((classes.parents absorbed).toList.filter fun parent =>
        !(classes.parents id).toList.contains parent).foldl IndexSet.erase
          ((classes.nodes[id]).parents.insertAll (classes.parents absorbed).toList) =
        (classes.nodes[id]).parents := by
      refine IndexSet.ext_mem fun x => ?_
      rw [mem_foldl_erase, IndexSet.mem_insertAll, ← hparents]
      simp only [List.mem_filter, List.contains_eq_mem, IndexSet.mem_toList, Bool.not_eq_true',
        decide_eq_false_iff_not]
      tauto
    rw [hset]
  · rw [if_neg (Ne.symm hid)]
    by_cases hid' : id = absorbed
    · subst hid'
      obtain ⟨node, hnode, hpointer⟩ := Option.map_eq_some_iff.1 habsorbed
      rw [if_pos rfl, if_pos rfl, hnode]
      simp only [Option.map_some, Option.some.injEq]
      rw [← hpointer]
    · rw [if_neg (Ne.symm hid'), if_neg hid', if_neg hid]

theorem restore?_eq : classes.restore? = match classes.checkpoints with
    | [] => none
    | log :: checkpoints =>
      some ⟨(classes.log.foldl undo classes).nodes, log, checkpoints⟩ := rfl

theorem restore?_absorb (habsorbed : classes.IsRoot absorbed) (hroot : root < classes.size)
    (hne : absorbed ≠ root) : (classes.absorb absorbed root).restore? = classes.restore? := by
  rw [restore?_eq, restore?_eq]
  have hnodes := nodes_foldl_undo classes.log (nodes_undo_absorb habsorbed hroot hne)
  cases hcheckpoints : classes.checkpoints with
  | nil => rw [show (classes.absorb absorbed root).checkpoints = [] from hcheckpoints]
  | cons log checkpoints =>
    rw [show (classes.absorb absorbed root).checkpoints = log :: checkpoints from hcheckpoints]
    exact congrArg (fun nodes => some (TermClasses.mk nodes log checkpoints)) hnodes

/-! ## Merging -/

section merge

variable {pending : List (NodeId × NodeId)} {p q : NodeId}

/-- The nodes are in one class, or wait to be. -/
def Linked (classes : TermClasses) (pending : List (NodeId × NodeId)) (a b : NodeId) : Prop :=
  classes.same a b = true ∨ (a, b) ∈ pending

def InRange (classes : TermClasses) (pending : List (NodeId × NodeId)) : Prop :=
  ∀ pair ∈ pending, pair.1 < classes.size ∧ pair.2 < classes.size

/-- How many pairs a merge of pending pairs can come to deal with. -/
def work (classes : TermClasses) (pending : List (NodeId × NodeId)) : Nat :=
  pending.length + (classes.size - classes.absorbedNodes.card) * (classes.size * classes.size)

/-- What waits after one class took over another: the parents that became congruent by it, and what
waited before. -/
def waiting (classes : TermClasses) (absorbed root : NodeId) (pending : List (NodeId × NodeId)) :
    List (NodeId × NodeId) :=
  ((classes.absorb absorbed root).congruentPairs (classes.parents absorbed).toList
    (classes.parents root).toList).reverse ++ pending

/-- Where two lists have different classes but will have equal ones, two of their elements do. -/
theorem exists_of_map_ne {f g : NodeId → NodeId} {xs ys : List NodeId} (hf : xs.map f = ys.map f)
    (hg : xs.map g ≠ ys.map g) : ∃ x ∈ xs, ∃ y ∈ ys, f x = f y ∧ g x ≠ g y := by
  induction xs generalizing ys with
  | nil =>
    cases ys with
    | nil => exact absurd rfl hg
    | cons y ys => exact absurd hf (by simp)
  | cons x xs ih =>
    cases ys with
    | nil => exact absurd hf (by simp)
    | cons y ys =>
      rw [List.map_cons, List.map_cons, List.cons.injEq] at hf
      by_cases hxy : g x = g y
      · have hrest : xs.map g ≠ ys.map g := by
          intro heq
          rw [List.map_cons, List.map_cons, hxy, heq] at hg
          exact hg rfl
        obtain ⟨x', hx', y', hy', h⟩ := ih hf.2 hrest
        exact ⟨x', List.mem_cons_of_mem _ hx', y', List.mem_cons_of_mem _ hy', h⟩
      · exact ⟨x, List.mem_cons_self, y, List.mem_cons_self, hf.1, hxy⟩

theorem mem_congruentPairs {ps qs : List NodeId} : (p, q) ∈ classes.congruentPairs ps qs ↔
    (p ∈ ps ∧ q ∈ qs) ∧ classes.same p q = false ∧ classes.congruent p q = true := by
  simp [congruentPairs]

theorem same_symm (h : classes.same a b = true) : classes.same b a = true :=
  same_iff.2 (same_iff.1 h).symm

theorem congruent_symm (h : classes.congruent a b = true) : classes.congruent b a = true := by
  obtain ⟨symbol, xs, ys, ha, hb, hmap⟩ := congruent_iff.1 h
  exact congruent_iff.2 ⟨symbol, ys, xs, hb, ha, hmap.symm⟩

theorem isParent_of_congruent (hvalid : classes.Valid) (habsorbed : classes.IsRoot absorbed)
    (hroot : classes.IsRoot root) (hne : absorbed ≠ root) (hold : classes.congruent p q ≠ true)
    (h : (classes.absorb absorbed root).congruent p q = true) :
    (classes.IsParent p absorbed ∧ classes.IsParent q root) ∨
      (classes.IsParent q absorbed ∧ classes.IsParent p root) := by
  obtain ⟨_, hrepresentative⟩ := hvalid.absorb habsorbed hroot hne
  obtain ⟨symbol, xs, ys, hp, hq, hmap⟩ := congruent_iff.1 h
  rw [sameTerms_absorb.term] at hp hq
  have hmapne : xs.map classes.representative ≠ ys.map classes.representative :=
    fun heq => hold (congruent_iff.2 ⟨symbol, xs, ys, hp, hq, heq⟩)
  -- the classes of two of the arguments differ before but not after
  obtain ⟨x, hx, y, hy, heq, hxy⟩ := exists_of_map_ne hmap hmapne
  rw [hrepresentative, hrepresentative] at heq
  by_cases hxa : classes.representative x = absorbed
  · rw [if_pos hxa] at heq
    have hyr : classes.representative y = root := by
      split at heq
      · rename_i hya
        exact absurd (hxa.trans hya.symm) hxy
      · exact heq.symm
    exact Or.inl ⟨⟨symbol, xs, hp, x, hx, hxa⟩, symbol, ys, hq, y, hy, hyr⟩
  · rw [if_neg hxa] at heq
    have hya : classes.representative y = absorbed := by
      by_contra hya
      rw [if_neg hya] at heq
      exact hxy heq
    rw [if_pos hya] at heq
    exact Or.inr ⟨⟨symbol, ys, hq, y, hy, hya⟩, symbol, xs, hp, x, hx, heq⟩

theorem linked_waiting (hvalid : classes.Valid) (habsorbed : classes.IsRoot absorbed)
    (hroot : classes.IsRoot root) (hp : classes.IsParent p absorbed) (hq : classes.IsParent q root)
    (h : (classes.absorb absorbed root).congruent p q = true) :
    (classes.absorb absorbed root).Linked (classes.waiting absorbed root pending) p q := by
  by_cases hsame : (classes.absorb absorbed root).same p q = true
  · exact Or.inl hsame
  · refine Or.inr (List.mem_append_left _ (List.mem_reverse.2 (mem_congruentPairs.2 ?_)))
    exact ⟨⟨(hvalid.parents _ habsorbed p).2 hp, (hvalid.parents _ hroot q).2 hq⟩,
      Bool.eq_false_iff.2 hsame, h⟩

theorem InRange.waiting (h : classes.InRange pending) (hvalid : classes.Valid)
    (habsorbed : classes.IsRoot absorbed) (hroot : classes.IsRoot root) :
    (classes.absorb absorbed root).InRange (classes.waiting absorbed root pending) := by
  rintro ⟨p, q⟩ hmem
  rw [sameTerms_absorb.size]
  rcases List.mem_append.1 hmem with hmem | hmem
  · obtain ⟨⟨hp, hq⟩, _⟩ := mem_congruentPairs.1 (List.mem_reverse.1 hmem)
    exact ⟨hvalid.lt_size_of_mem_parents habsorbed hp, hvalid.lt_size_of_mem_parents hroot hq⟩
  · exact h _ hmem

theorem Valid.length_parents (h : classes.Valid) (hroot : classes.IsRoot root) :
    (classes.parents root).toList.length ≤ classes.size := by
  have hnodup : (classes.parents root).toList.Nodup :=
    (classes.parents root).ascending.imp Nat.ne_of_lt
  have hsubset : (classes.parents root).toList ⊆ List.range classes.size :=
    fun id hid => List.mem_range.2 (h.lt_size_of_mem_parents hroot hid)
  have hle := (hnodup.subperm hsubset).length_le
  rwa [List.length_range] at hle

theorem Valid.length_congruentPairs (h : classes.Valid) (habsorbed : classes.IsRoot absorbed)
    (hroot : classes.IsRoot root) : (classes'.congruentPairs (classes.parents absorbed).toList
      (classes.parents root).toList).length ≤ classes.size * classes.size := by
  refine Nat.le_trans (List.length_filter_le _ _) ?_
  refine Nat.le_trans (Nat.le_of_eq (List.length_product _ _)) ?_
  exact Nat.mul_le_mul (h.length_parents habsorbed) (h.length_parents hroot)

structure Merged (classes classes' : TermClasses) : Prop where
  valid : classes'.Valid
  terms : classes.SameTerms classes'
  same : ∀ a b, classes.same a b = true → classes'.same a b = true
  restore : classes'.restore? = classes.restore?
  checkpoints : classes'.checkpoints = classes.checkpoints

theorem Valid.merged (h : classes.Valid) : classes.Merged classes :=
  ⟨h, .refl _, fun _ _ => id, rfl, rfl⟩

theorem Merged.trans {classes'' : TermClasses} (h : classes.Merged classes')
    (h' : classes'.Merged classes'') : classes.Merged classes'' :=
  ⟨h'.valid, h.terms.trans h'.terms, fun a b hab => h'.same a b (h.same a b hab),
    h'.restore.trans h.restore, h'.checkpoints.trans h.checkpoints⟩

theorem Valid.merged_absorb (h : classes.Valid) (habsorbed : classes.IsRoot absorbed)
    (hroot : classes.IsRoot root) (hne : absorbed ≠ root) :
    classes.Merged (classes.absorb absorbed root) := by
  obtain ⟨hvalid, hrepresentative⟩ := h.absorb habsorbed hroot hne
  refine ⟨hvalid, sameTerms_absorb, fun a b hab => ?_,
    restore?_absorb habsorbed hroot.lt_size hne, rfl⟩
  rw [same_iff, hrepresentative, hrepresentative, same_iff.1 hab]

theorem Valid.work_absorb (h : classes.Valid) (habsorbed : classes.IsRoot absorbed)
    (hroot : classes.IsRoot root) (hne : absorbed ≠ root) :
    (classes.absorb absorbed root).work (classes.waiting absorbed root pending) ≤
      classes.work pending := by
  have hsize : (classes.absorb absorbed root).size = classes.size := sameTerms_absorb.size
  have hcard := absorbedNodes_linked habsorbed hne hsize
    fun _ => pointer?_absorb habsorbed.lt_size hne
  have hlength : ((classes.absorb absorbed root).congruentPairs (classes.parents absorbed).toList
      (classes.parents root).toList).length ≤ classes.size * classes.size :=
    h.length_congruentPairs habsorbed hroot
  -- the root stays a root, so not all nodes are absorbed
  have hless : classes.absorbedNodes.card < classes.size := by
    have hsubset : classes.absorbedNodes ⊂ Finset.range classes.size := by
      refine Finset.ssubset_iff_subset_ne.2 ⟨Finset.filter_subset _ _, fun heq => ?_⟩
      have hmem := Finset.mem_range.2 hroot.lt_size
      rw [← heq] at hmem
      exact (Finset.mem_filter.1 hmem).2 hroot
    have := Finset.card_lt_card hsubset
    rwa [Finset.card_range] at this
  unfold work waiting
  rw [hcard, hsize, List.length_append, List.length_reverse]
  obtain ⟨others, hothers⟩ : ∃ others, classes.size - classes.absorbedNodes.card = others + 1 :=
    ⟨classes.size - classes.absorbedNodes.card - 1, by omega⟩
  rw [hothers, show classes.size - (classes.absorbedNodes.card + 1) = others by omega,
    Nat.succ_mul]
  omega

/-- From each node the pointers lead to its representative. -/
def Represented (classes : TermClasses) : Prop :=
  ∀ id < classes.size, classes.Leads id (classes.representative id)

/-- Merging the classes of pending pairs comes to an end, with a count of merges and with classes.
-/
inductive Merges : (classes : TermClasses) → (merges : Nat) → (pending : List (NodeId × NodeId)) →
    (result : Nat × TermClasses) → Prop
  | done {classes : TermClasses} {merges : Nat} : Merges classes merges [] (merges, classes)
  | equal {classes : TermClasses} {merges : Nat} {pending : List (NodeId × NodeId)}
    {result : Nat × TermClasses} {a b root : NodeId} (ha : classes.Leads a root)
    (hb : classes.Leads b root) (hrest : Merges classes merges pending result) :
    Merges classes merges ((a, b) :: pending) result
  | absorb {classes : TermClasses} {merges : Nat} {pending : List (NodeId × NodeId)}
    {result : Nat × TermClasses} {a b absorbed root : NodeId} (ha : classes.Leads a absorbed)
    (hb : classes.Leads b root) (hne : absorbed ≠ root)
    (hrepresented : (classes.absorb absorbed root).Represented)
    (hrest : Merges (classes.absorb absorbed root) (merges + 1)
      (classes.waiting absorbed root pending) result) :
    Merges classes merges ((a, b) :: pending) result

theorem Valid.represented (h : classes.Valid) : classes.Represented := fun _ hid => h.forest.leads hid

theorem InRange.rest (h : classes.InRange ((a, b) :: pending)) : classes.InRange pending :=
  fun pair hmem => h pair (List.mem_cons_of_mem _ hmem)

theorem mergeAll_ends (merges budget : Nat) (h : classes.Valid) (hrange : classes.InRange pending)
    (hbudget : classes.work pending ≤ budget) :
    classes.Merges merges pending (classes.mergeAll merges budget pending) := by
  -- by induction on the budget, which the work left never exceeds
  induction budget generalizing classes merges pending with
  | zero =>
    have hnil : pending = [] := List.length_eq_zero_iff.1 (by unfold work at hbudget; omega)
    subst hnil
    exact .done
  | succ budget ih =>
    cases pending with
    | nil => exact .done
    | cons pair pending =>
      obtain ⟨a, b⟩ := pair
      obtain ⟨ha, hb⟩ := hrange _ List.mem_cons_self
      have hwork : classes.work pending ≤ budget := by
        unfold work at hbudget ⊢
        rw [List.length_cons] at hbudget
        omega
      unfold mergeAll
      dsimp only
      by_cases heq : classes.representative a = classes.representative b
      · rw [if_pos heq]
        exact .equal (heq ▸ h.forest.leads ha) (h.forest.leads hb) (ih merges h hrange.rest hwork)
      · rw [if_neg heq]
        have habsorbed := h.forest.isRoot_representative ha
        have hroot := h.forest.isRoot_representative hb
        have hvalid := (h.absorb habsorbed hroot heq).1
        refine .absorb (h.forest.leads ha) (h.forest.leads hb) heq hvalid.represented ?_
        exact ih (merges + 1) hvalid (hrange.rest.waiting h habsorbed hroot)
          (Nat.le_trans (h.work_absorb habsorbed hroot heq) hwork)

theorem Merges.merged {merges : Nat} {result : Nat × TermClasses}
    (hmerges : classes.Merges merges pending result) (h : classes.Valid)
    (hrange : classes.InRange pending) : classes.Merged result.2 ∧
      ∀ pair ∈ pending, result.2.same pair.1 pair.2 = true := by
  induction hmerges with
  | done => exact ⟨h.merged, List.forall_mem_nil _⟩
  | equal ha hb _ ih =>
    have hsame := same_iff.2 ((h.forest.representative_eq ha).trans
      (h.forest.representative_eq hb).symm)
    obtain ⟨hmerged, hpairs⟩ := ih h hrange.rest
    exact ⟨hmerged, List.forall_mem_cons.2 ⟨hmerged.same _ _ hsame, hpairs⟩⟩
  | @absorb classes _ _ _ a b _ _ ha hb hne _ _ ih =>
    have hfirst := h.merged_absorb ha.isRoot hb.isRoot hne
    obtain ⟨hmerged, hpairs⟩ := ih hfirst.valid (hrange.rest.waiting h ha.isRoot hb.isRoot)
    refine ⟨hfirst.trans hmerged, List.forall_mem_cons.2 ⟨hmerged.same a b ?_,
      fun pair hmem => hpairs pair (List.mem_append_right _ hmem)⟩⟩
    obtain ⟨_, hrepresentative⟩ := h.absorb ha.isRoot hb.isRoot hne
    rw [same_iff, hrepresentative, hrepresentative, h.forest.representative_eq ha,
      h.forest.representative_eq hb, if_pos rfl, if_neg hne.symm]

theorem Merges.same_of_congruent {merges : Nat} {result : Nat × TermClasses}
    (hmerges : classes.Merges merges pending result) (h : classes.Valid)
    (hrange : classes.InRange pending) (hpq : result.2.congruent p q = true) :
    classes.congruent p q = true ∨ result.2.same p q = true := by
  induction hmerges with
  | done => exact Or.inl hpq
  | equal _ _ _ ih => exact ih h hrange.rest hpq
  | @absorb classes _ pending result _ _ absorbed root ha hb hne _ hrest ih =>
    have hvalid := (h.absorb ha.isRoot hb.isRoot hne).1
    have hrange' := hrange.rest.waiting h ha.isRoot hb.isRoot
    obtain ⟨hmerged, hpairs⟩ := hrest.merged hvalid hrange'
    have hlinked : ∀ x y, (classes.absorb absorbed root).Linked
        (classes.waiting absorbed root pending) x y → result.2.same x y = true := by
      rintro x y (hsame | hmem)
      · exact hmerged.same x y hsame
      · exact hpairs _ hmem
    rcases ih hvalid hrange' hpq with hcongruent | hsame
    · by_cases hold : classes.congruent p q = true
      · exact Or.inl hold
      · -- both are parents of the two classes, so they are equal by now or wait, in one order
        right
        rcases isParent_of_congruent h ha.isRoot hb.isRoot hne hold hcongruent with
          ⟨hp, hq⟩ | ⟨hq, hp⟩
        · exact hlinked p q (linked_waiting h ha.isRoot hb.isRoot hp hq hcongruent)
        · apply same_symm
          exact hlinked q p (linked_waiting h ha.isRoot hb.isRoot hq hp (congruent_symm hcongruent))
    · exact Or.inr hsame

theorem inRange_pair (ha : a < classes.size) (hb : b < classes.size) :
    classes.InRange [(a, b)] := by
  rintro pair hpair
  rw [List.mem_singleton.1 hpair]
  exact ⟨ha, hb⟩

/-- The budget of a merge lasts until nothing is pending. -/
theorem Valid.merge_ends (h : classes.Valid) (ha : a < classes.size) (hb : b < classes.size) :
    classes.Merges 0 [(a, b)] (classes.merge a b) := by
  apply mergeAll_ends 0 _ h (inRange_pair ha hb)
  unfold work
  have := Nat.mul_le_mul_right (classes.size * classes.size)
    (Nat.sub_le classes.size classes.absorbedNodes.card)
  rw [List.length_singleton, Nat.mul_assoc]
  omega

theorem Valid.merge (h : classes.Valid) (ha : a < classes.size) (hb : b < classes.size) :
    classes.Merged (classes.merge a b).2 ∧ (classes.merge a b).2.same a b = true := by
  obtain ⟨hmerged, hpairs⟩ := (h.merge_ends ha hb).merged h (inRange_pair ha hb)
  exact ⟨hmerged, hpairs (a, b) List.mem_cons_self⟩

theorem Valid.congruent_of_merge (h : classes.Valid) (ha : a < classes.size)
    (hb : b < classes.size) (hpq : (classes.merge a b).2.congruent p q = true) :
    classes.congruent p q = true ∨ (classes.merge a b).2.same p q = true :=
  (h.merge_ends ha hb).same_of_congruent h (inRange_pair ha hb) hpq

/-- A merge ends with closed classes in which the two nodes are equal. -/
theorem merge_spec (h : classes.Valid) (hclosed : classes.Closed) (ha : a < classes.size)
    (hb : b < classes.size) : classes.Merged (classes.merge a b).2 ∧ (classes.merge a b).2.Closed ∧
      (classes.merge a b).2.same a b = true := by
  obtain ⟨hmerged, hsame⟩ := h.merge ha hb
  refine ⟨hmerged, fun p q hpq => ?_, hsame⟩
  rcases h.congruent_of_merge ha hb hpq with hold | hnew
  · exact hmerged.same p q (hclosed p q hold)
  · exact hnew

end merge

end Satisfiability.Equality.TermClasses
