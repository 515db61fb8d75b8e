import Satisfiability.Search.ImplicationGraph

/-!
# Reasons, parents and children

What noting and forgetting a reason do to the reasons of all atoms and to their parents. The lists
of children change along the way, which leaves reasons and parents as they are (`SameForced`). An
atom becomes a child of the atoms that it has for parents, and is no child of them once its reason
is forgotten.
-/

namespace Satisfiability.Search.ImplicationGraph

attribute [ext] ImplicationNode

variable {graph graph' graph'' : ImplicationGraph}

theorem node_modify (atom other : Atom) (f : ImplicationNode → ImplicationNode) :
    (graph.modify atom f).node other =
      if other = atom ∧ atom < graph.nodes.size then f (graph.node other) else graph.node other := by
  unfold modify node
  simp only [Array.getD_eq_getD_getElem?, Array.getElem?_modify]
  by_cases hatom : atom = other
  · subst hatom
    by_cases hlt : atom < graph.nodes.size
    · simp [hlt]
    · simp [hlt]
  · simp [hatom, Ne.symm hatom]

theorem node_addAtom (atom other : Atom) : (graph.addAtom atom).node other = graph.node other := by
  unfold addAtom node
  simp only [Array.getD_eq_getD_getElem?, Array.getElem?_append, Array.getElem?_replicate]
  split
  · rfl
  · rename_i hlt
    rw [Array.getElem?_eq_none (Nat.le_of_not_lt hlt)]
    split <;> rfl

theorem size_addAtom (graph : ImplicationGraph) (atom : Atom) :
    atom < (graph.addAtom atom).nodes.size := by
  simp only [addAtom, Array.size_append, Array.size_replicate]
  exact Nat.sub_le_iff_le_add'.1 (Nat.le_refl _)

theorem size_addChild (child parent : Atom) :
    graph.nodes.size ≤ (addChild child graph parent).nodes.size := by
  simp [addChild, modify, addAtom]

/-! ## Children -/

/-- The same clauses force the same values: the graphs differ at most in their lists of children. -/
def SameForced (graph graph' : ImplicationGraph) : Prop :=
  ∀ atom, (graph'.node atom).reason = (graph.node atom).reason ∧
    (graph'.node atom).parents = (graph.node atom).parents

theorem SameForced.refl (graph : ImplicationGraph) : graph.SameForced graph :=
  fun _ => ⟨rfl, rfl⟩

theorem SameForced.trans (h : graph.SameForced graph') (h' : graph'.SameForced graph'') :
    graph.SameForced graph'' :=
  fun atom => ⟨(h' atom).1.trans (h atom).1, (h' atom).2.trans (h atom).2⟩

theorem sameForced_addAtom (graph : ImplicationGraph) (atom : Atom) :
    graph.SameForced (graph.addAtom atom) := by
  intro other
  rw [node_addAtom]
  exact ⟨rfl, rfl⟩

theorem sameForced_modify (graph : ImplicationGraph) (atom : Atom)
    {f : ImplicationNode → ImplicationNode}
    (hf : ∀ node, (f node).reason = node.reason ∧ (f node).parents = node.parents) :
    graph.SameForced (graph.modify atom f) := by
  intro other
  rw [node_modify]
  split
  · exact hf _
  · exact ⟨rfl, rfl⟩

theorem sameForced_addChild (graph : ImplicationGraph) (child parent : Atom) :
    graph.SameForced (addChild child graph parent) :=
  (sameForced_addAtom graph parent).trans (sameForced_modify _ parent fun _ => ⟨rfl, rfl⟩)

theorem sameForced_removeChild (graph : ImplicationGraph) (child parent : Atom) :
    graph.SameForced (removeChild child graph parent) :=
  sameForced_modify graph parent fun _ => ⟨rfl, rfl⟩

theorem foldl_addChild (graph : ImplicationGraph) (child : Atom) (parents : List Atom) :
    graph.SameForced (parents.foldl (addChild child) graph) ∧
      graph.nodes.size ≤ (parents.foldl (addChild child) graph).nodes.size := by
  induction parents generalizing graph with
  | nil => exact ⟨.refl graph, Nat.le_refl _⟩
  | cons parent rest ih =>
    rw [List.foldl_cons]
    obtain ⟨hsame, hsize⟩ := ih (addChild child graph parent)
    exact ⟨(sameForced_addChild graph child parent).trans hsame, Nat.le_trans (size_addChild ..) hsize⟩

theorem foldl_removeChild (graph : ImplicationGraph) (child : Atom) (parents : List Atom) :
    graph.SameForced (parents.foldl (removeChild child) graph) := by
  induction parents generalizing graph with
  | nil => exact .refl graph
  | cons parent rest ih => exact (sameForced_removeChild graph child parent).trans (ih _)

section children

variable (child : Atom) (parents : List Atom) {other atom : Atom}

theorem mem_children_addChild (graph : ImplicationGraph) (parent : Atom) :
    atom ∈ ((addChild child graph parent).node other).children ↔
      (atom = child ∧ other = parent) ∨ atom ∈ (graph.node other).children := by
  unfold addChild
  rw [node_modify, node_addAtom]
  by_cases hother : other = parent
  · rw [if_pos ⟨hother, size_addAtom graph parent⟩]
    simp [hother]
  · rw [if_neg fun h => hother h.1]
    simp [hother]

theorem mem_children_foldl_addChild (graph : ImplicationGraph) :
    atom ∈ ((parents.foldl (addChild child) graph).node other).children ↔
      (atom = child ∧ other ∈ parents) ∨ atom ∈ (graph.node other).children := by
  induction parents generalizing graph with
  | nil => simp
  | cons parent rest ih =>
    rw [List.foldl_cons, ih, mem_children_addChild, List.mem_cons]
    grind

theorem mem_children_removeChild (graph : ImplicationGraph) (parent : Atom) :
    atom ∈ ((removeChild child graph parent).node other).children ↔
      atom ∈ (graph.node other).children ∧ ¬ (atom = child ∧ other = parent) := by
  unfold removeChild
  rw [node_modify]
  by_cases hother : other = parent
  · by_cases hlt : parent < graph.nodes.size
    · rw [if_pos ⟨hother, hlt⟩]
      simp [hother]
    · -- there is no node, and so no child
      rw [if_neg fun h => hlt h.2, hother]
      simp [node, Array.getD_eq_getD_getElem?, Array.getElem?_eq_none (Nat.le_of_not_lt hlt)]
  · rw [if_neg fun h => hother h.1]
    simp [hother]

theorem mem_children_foldl_removeChild (graph : ImplicationGraph) :
    atom ∈ ((parents.foldl (removeChild child) graph).node other).children ↔
      atom ∈ (graph.node other).children ∧ ¬ (atom = child ∧ other ∈ parents) := by
  induction parents generalizing graph with
  | nil => simp
  | cons parent rest ih =>
    rw [List.foldl_cons, ih, mem_children_removeChild, List.mem_cons]
    grind

end children

/-! ## Noting and forgetting -/

section note

variable (atom other : Atom) (reason : Option ClauseKey) (clauseAtoms : List Atom)

theorem node_note :
    ((graph.note atom reason clauseAtoms).node other).reason =
        (if other = atom then reason else (graph.node other).reason) ∧
      ((graph.note atom reason clauseAtoms).node other).parents =
        if other = atom then (IndexSet.ofList clauseAtoms).erase atom
        else (graph.node other).parents := by
  obtain ⟨hsame, hsize⟩ := foldl_addChild (graph.addAtom atom) atom
    ((IndexSet.ofList clauseAtoms).erase atom).toList
  have hsame' := (sameForced_addAtom graph atom).trans hsame
  unfold note
  rw [node_modify]
  by_cases hother : other = atom
  · have hlt := Nat.lt_of_lt_of_le (size_addAtom graph atom) hsize
    simp only [if_pos hother, if_pos (And.intro hother hlt), and_self]
  · rw [if_neg fun h => hother h.1, if_neg hother, if_neg hother]
    exact hsame' other

theorem reason?_note :
    (graph.note atom reason clauseAtoms).reason? other =
      if other = atom then reason else graph.reason? other :=
  (node_note atom other reason clauseAtoms).1

theorem mem_parents_note {parent : Atom} :
    parent ∈ ((graph.note atom reason clauseAtoms).node other).parents ↔
      if other = atom then parent ∈ clauseAtoms ∧ parent ≠ atom
      else parent ∈ (graph.node other).parents := by
  rw [(node_note atom other reason clauseAtoms).2]
  split
  · simp
  · rfl

theorem mem_children_note {child : Atom} :
    child ∈ ((graph.note atom reason clauseAtoms).node other).children ↔
      (child = atom ∧ other ∈ clauseAtoms ∧ other ≠ atom) ∨
        child ∈ (graph.node other).children := by
  have hchildren : ((graph.note atom reason clauseAtoms).node other).children =
      ((((IndexSet.ofList clauseAtoms).erase atom).toList.foldl (addChild atom)
        (graph.addAtom atom)).node other).children := by
    unfold note
    rw [node_modify]
    split <;> rfl
  rw [hchildren, mem_children_foldl_addChild, node_addAtom]
  simp [IndexSet.mem_toList]

end note

theorem node_reset (atom other : Atom) :
    ((graph.reset atom).node other).reason =
        (if other = atom then none else (graph.node other).reason) ∧
      ((graph.reset atom).node other).parents =
        if other = atom then ∅ else (graph.node other).parents := by
  have hsame := foldl_removeChild (graph.modify atom fun _ => {}) atom
    (graph.node atom).parents.toList other
  -- leaving the lists of its parents changes no reason
  unfold reset
  rw [hsame.1, hsame.2, node_modify]
  by_cases hother : other = atom
  · subst hother
    by_cases hlt : other < graph.nodes.size
    · rw [if_pos ⟨rfl, hlt⟩, if_pos rfl, if_pos rfl]
      exact ⟨rfl, rfl⟩
    · rw [if_neg fun h => hlt h.2, if_pos rfl, if_pos rfl]
      unfold node
      rw [Array.getD_eq_getD_getElem?, Array.getElem?_eq_none (Nat.le_of_not_lt hlt)]
      exact ⟨rfl, rfl⟩
  · rw [if_neg fun h => hother h.1, if_neg hother, if_neg hother]
    exact ⟨rfl, rfl⟩

theorem reason?_reset (atom other : Atom) :
    (graph.reset atom).reason? other = if other = atom then none else graph.reason? other :=
  (node_reset atom other).1

theorem mem_children_reset (atom other : Atom) {child : Atom} :
    child ∈ ((graph.reset atom).node other).children ↔
      other ≠ atom ∧ child ∈ (graph.node other).children ∧
        ¬ (child = atom ∧ other ∈ (graph.node atom).parents) := by
  unfold reset
  rw [mem_children_foldl_removeChild, node_modify, IndexSet.mem_toList]
  by_cases hother : other = atom
  · subst hother
    by_cases hlt : other < graph.nodes.size
    · simp [hlt]
    · simp [hlt, node, Array.getD_eq_getD_getElem?]
  · simp [hother]

/-! ## The graph of a level -/

section levelGraph

variable {level conflict : List Atom} {atom parent : Atom} {a b : Option Atom}

theorem arrow_iff : (some parent, some atom) ∈ (graph.levelGraph level conflict).arrows ↔
    atom ∈ level ∧ parent ∈ (graph.node atom).parents ∧ parent ∈ level := by
  simp only [levelGraph, List.mem_append, List.mem_flatMap, List.mem_map, List.mem_filter,
    List.contains_iff_mem, Prod.mk.injEq, Option.some.injEq, reduceCtorEq, and_false, exists_false,
    or_false, IndexSet.mem_toList]
  constructor
  · rintro ⟨_, hatom, _, ⟨hmem, hparent⟩, rfl, rfl⟩
    exact ⟨hatom, hmem, hparent⟩
  · rintro ⟨hatom, hmem, hparent⟩
    exact ⟨atom, hatom, parent, ⟨hmem, hparent⟩, rfl, rfl⟩

theorem arrow_conflict_iff : (some atom, none) ∈ (graph.levelGraph level conflict).arrows ↔
    atom ∈ conflict ∧ atom ∈ level := by
  simp [levelGraph]

theorem exists_source (h : (a, b) ∈ (graph.levelGraph level conflict).arrows) :
    ∃ atom ∈ level, a = some atom := by
  simp only [levelGraph, List.mem_append, List.mem_flatMap, List.mem_map, List.mem_filter,
    List.contains_iff_mem, Prod.mk.injEq] at h
  rcases h with ⟨_, _, parent, ⟨_, hparent⟩, rfl, _⟩ | ⟨atom, ⟨_, hatom⟩, rfl, _⟩
  · exact ⟨parent, hparent, rfl⟩
  · exact ⟨atom, hatom, rfl⟩

end levelGraph

end Satisfiability.Search.ImplicationGraph
