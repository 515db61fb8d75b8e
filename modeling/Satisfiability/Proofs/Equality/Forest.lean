import Mathlib.Data.Finset.Card
import Satisfiability.Equality.TermClasses

/-!
# Pointers of term classes

The pointers of the nodes form a forest: from each node they lead to a root, a node that points to
itself, within as many steps as there are nodes (`Forest`). The root is the representative of the
node (`Forest.leads`). When one root is made to point to another, exactly the nodes that it
represented get the other as their representative (`Forest.absorb`).
-/

namespace Satisfiability.Equality.TermClasses

variable {classes classes' : TermClasses} {id root : NodeId}

def pointer? (classes : TermClasses) (id : NodeId) : Option NodeId :=
  (classes.nodes[id]?).map TermNode.pointer

def IsRoot (classes : TermClasses) (id : NodeId) : Prop := classes.pointer? id = some id

def absorbedNodes (classes : TermClasses) : Finset NodeId :=
  (Finset.range classes.size).filter fun id => classes.pointer? id ≠ some id

/-- The pointers lead on to roots, at most as many steps as there are nodes that are no roots. -/
structure Forest (classes : TermClasses) : Prop where
  bounded : ∀ id next, classes.pointer? id = some next → next < classes.size
  depth : ∃ depth : NodeId → Nat, (∀ id, classes.IsRoot id → depth id = 0) ∧
    (∀ id next, classes.pointer? id = some next → next ≠ id → depth next < depth id) ∧
    ∀ id, depth id ≤ classes.absorbedNodes.card

/-- The pointers lead from a node to a root. -/
inductive Leads (classes : TermClasses) : NodeId → NodeId → Prop
  | here {id : NodeId} (hroot : classes.IsRoot id) : Leads classes id id
  | next {id next root : NodeId} (hpointer : classes.pointer? id = some next) (hne : next ≠ id)
    (hleads : Leads classes next root) : Leads classes id root

theorem lt_size_of_pointer? {next : NodeId} (h : classes.pointer? id = some next) :
    id < classes.size := by
  obtain ⟨_, hnode, _⟩ := Option.map_eq_some_iff.1 h
  exact (Array.getElem?_eq_some_iff.1 hnode).1

theorem pointer?_of_lt (h : id < classes.size) : ∃ next, classes.pointer? id = some next :=
  ⟨_, by rw [pointer?, Array.getElem?_eq_getElem h]; rfl⟩

theorem IsRoot.lt_size (h : classes.IsRoot id) : id < classes.size := lt_size_of_pointer? h

theorem Leads.isRoot (h : classes.Leads id root) : classes.IsRoot root := by
  induction h with
  | here hroot => exact hroot
  | next _ _ _ ih => exact ih

theorem Leads.unique {root' : NodeId} (h : classes.Leads id root) (h' : classes.Leads id root') :
    root = root' := by
  induction h with
  | here hroot =>
    cases h' with
    | here => rfl
    | next hpointer hne => exact absurd (Option.some.inj (hpointer.symm.trans hroot)) hne
  | next hpointer hne _ ih =>
    cases h' with
    | here hroot => exact absurd (Option.some.inj (hpointer.symm.trans hroot)) hne
    | next hpointer' _ hleads =>
      cases hpointer.symm.trans hpointer'
      exact ih hleads

theorem chase_succ (steps : Nat) {next : NodeId} (hpointer : classes.pointer? id = some next) :
    classes.chase (steps + 1) id = if next = id then id else classes.chase steps next := by
  obtain ⟨node, hnode, rfl⟩ := Option.map_eq_some_iff.1 hpointer
  rw [chase, hnode]

theorem leads_chase {depth : NodeId → Nat}
    (hbounded : ∀ id next, classes.pointer? id = some next → next < classes.size)
    (hdepth : ∀ id next, classes.pointer? id = some next → next ≠ id → depth next < depth id)
    (steps : Nat) (hid : id < classes.size) (hsteps : depth id ≤ steps) :
    classes.Leads id (classes.chase steps id) := by
  induction steps generalizing id with
  | zero =>
    obtain ⟨next, hpointer⟩ := pointer?_of_lt hid
    by_cases heq : next = id
    · exact .here (heq ▸ hpointer)
    · have := hdepth id next hpointer heq
      omega
  | succ steps ih =>
    obtain ⟨next, hpointer⟩ := pointer?_of_lt hid
    rw [chase_succ steps hpointer]
    by_cases heq : next = id
    · rw [if_pos heq]
      exact .here (heq ▸ hpointer)
    · rw [if_neg heq]
      have := hdepth id next hpointer heq
      exact .next hpointer heq (ih (hbounded id next hpointer) (by omega))

theorem Forest.leads (h : classes.Forest) (hid : id < classes.size) :
    classes.Leads id (classes.representative id) := by
  obtain ⟨depth, _, hdepth, hcard⟩ := h.depth
  have hsize : classes.absorbedNodes.card ≤ classes.size := by
    refine Nat.le_trans (Finset.card_filter_le _ _) ?_
    rw [Finset.card_range]
  exact leads_chase h.bounded hdepth classes.size hid (Nat.le_trans (hcard id) hsize)

theorem Forest.isRoot_representative (h : classes.Forest) (hid : id < classes.size) :
    classes.IsRoot (classes.representative id) :=
  (h.leads hid).isRoot

theorem Forest.representative_lt (h : classes.Forest) (hid : id < classes.size) :
    classes.representative id < classes.size :=
  (h.isRoot_representative hid).lt_size

theorem Forest.representative_eq (h : classes.Forest) (hleads : classes.Leads id root) :
    classes.representative id = root := by
  have hid : id < classes.size := by
    cases hleads with
    | here hroot => exact hroot.lt_size
    | next hpointer => exact lt_size_of_pointer? hpointer
  exact (h.leads hid).unique hleads

theorem Forest.representative_root (h : classes.Forest) (hroot : classes.IsRoot id) :
    classes.representative id = id :=
  h.representative_eq (.here hroot)

theorem Forest.representative_next (h : classes.Forest) {next : NodeId}
    (hpointer : classes.pointer? id = some next) :
    classes.representative next = classes.representative id := by
  by_cases heq : next = id
  · rw [heq]
  · exact (h.representative_eq (.next hpointer heq (h.leads (h.bounded id next hpointer)))).symm

theorem representative_of_le (h : classes.size ≤ id) : classes.representative id = id := by
  unfold representative
  cases classes.size with
  | zero => rfl
  | succ steps => rw [chase, Array.getElem?_eq_none h]

/-! ## Other forms of the nodes -/

theorem Leads.congr (hpointer : ∀ id, classes'.pointer? id = classes.pointer? id)
    (h : classes.Leads id root) : classes'.Leads id root := by
  induction h with
  | here hroot => exact .here ((hpointer _).trans hroot)
  | next hnext hne _ ih => exact .next ((hpointer _).trans hnext) hne ih

theorem Forest.congr (h : classes.Forest) (hsize : classes'.size = classes.size)
    (hpointer : ∀ id, classes'.pointer? id = classes.pointer? id) :
    classes'.Forest ∧ ∀ id, classes'.representative id = classes.representative id := by
  have hnodes : classes'.absorbedNodes = classes.absorbedNodes := by
    simp only [absorbedNodes, hsize, hpointer]
  have hforest : classes'.Forest := by
    refine ⟨fun id next hnext => ?_, ?_⟩
    · rw [hsize]
      exact h.bounded id next ((hpointer id).symm.trans hnext)
    · simp only [IsRoot, hpointer, hnodes]
      exact h.depth
  refine ⟨hforest, fun id => ?_⟩
  by_cases hid : id < classes.size
  · exact hforest.representative_eq ((h.leads hid).congr hpointer)
  · have hle := Nat.le_of_not_lt hid
    rw [representative_of_le hle, representative_of_le (hsize ▸ hle)]

/-! ## One root made to point to another -/

section linked

variable {absorbed : NodeId} (h : classes.Forest) (habsorbed : classes.IsRoot absorbed)
  (hroot : classes.IsRoot root) (hne : absorbed ≠ root) (hsize : classes'.size = classes.size)
  (hpointer : ∀ id, classes'.pointer? id =
    if id = absorbed then some root else classes.pointer? id)

include habsorbed hroot hne hpointer

theorem Leads.linked {top : NodeId} (hleads : classes.Leads id top) :
    classes'.Leads id (if top = absorbed then root else top) := by
  have htop : classes'.Leads root root := by
    refine .here ?_
    rw [IsRoot, hpointer, if_neg hne.symm]
    exact hroot
  -- along the pointers, which stay the same except at the absorbed root
  induction hleads with
  | @here id hid =>
    by_cases heq : id = absorbed
    · rw [if_pos heq]
      have hlinked : classes'.pointer? id = some root := by rw [hpointer, if_pos heq]
      exact .next hlinked (heq ▸ hne.symm) htop
    · rw [if_neg heq]
      refine .here ?_
      rw [IsRoot, hpointer, if_neg heq]
      exact hid
  | @next id next top hnext hother _ ih =>
    -- a root has no other node to point to
    have heq : id ≠ absorbed := by
      rintro rfl
      exact hother (Option.some.inj (hnext.symm.trans habsorbed))
    have hkept : classes'.pointer? id = some next := by
      rw [hpointer, if_neg heq]
      exact hnext
    exact .next hkept hother ih

include hsize

omit hroot in
theorem absorbedNodes_linked : classes'.absorbedNodes.card = classes.absorbedNodes.card + 1 := by
  have hinsert : classes'.absorbedNodes = insert absorbed classes.absorbedNodes := by
    ext id
    simp only [absorbedNodes, hsize, Finset.mem_insert, Finset.mem_filter, Finset.mem_range, hpointer]
    by_cases heq : id = absorbed
    · simp [heq, habsorbed.lt_size, hne.symm]
    · simp [heq]
  rw [hinsert, Finset.card_insert_of_notMem]
  simp only [absorbedNodes, Finset.mem_filter, not_and, not_not]
  exact fun _ => habsorbed

include h

theorem Forest.linked : classes'.Forest ∧ ∀ id, classes'.representative id =
    if classes.representative id = absorbed then root else classes.representative id := by
  obtain ⟨depth, hzero, hdepth, hcard⟩ := h.depth
  have hcount := absorbedNodes_linked habsorbed hne hsize hpointer
  have hself := h.representative_root habsorbed
  have hrootself := h.representative_root hroot
  -- the nodes of the absorbed class get one deeper, and one more node is absorbed
  have hforest : classes'.Forest := by
    refine ⟨fun id next hnext => ?_, fun id => if classes.representative id = absorbed then
      depth id + 1 else depth id, fun id hid => ?_, fun id next hnext hother => ?_, fun id => ?_⟩
    · rw [hsize]
      rw [hpointer] at hnext
      split at hnext
      · cases hnext
        exact hroot.lt_size
      · exact h.bounded id next hnext
    · rw [IsRoot, hpointer] at hid
      split at hid
      · rename_i heq
        exact absurd (heq.symm.trans (Option.some.inj hid).symm) hne
      · rename_i heq
        dsimp only
        rw [h.representative_root hid, if_neg heq]
        exact hzero id hid
    · rw [hpointer] at hnext
      dsimp only
      split at hnext
      · rename_i heq
        cases hnext
        rw [heq, hself, if_pos rfl, hrootself, if_neg hne.symm, hzero root hroot]
        exact Nat.succ_pos _
      · rw [h.representative_next hnext]
        have := hdepth id next hnext hother
        split <;> omega
    · rw [hcount]
      have := hcard id
      dsimp only
      split <;> omega
  refine ⟨hforest, fun id => ?_⟩
  by_cases hid : id < classes.size
  · exact hforest.representative_eq
      ((h.leads hid).linked habsorbed hroot hne hpointer)
  · have hle := Nat.le_of_not_lt hid
    have heq : id ≠ absorbed := fun heq => hid (heq ▸ habsorbed.lt_size)
    rw [representative_of_le hle, representative_of_le (hsize ▸ hle), if_neg heq]

end linked

/-! ## New nodes -/

section push

variable (hsize : classes'.size = classes.size + 1)
  (hpointer : ∀ id, classes'.pointer? id =
    if id = classes.size then some classes.size else classes.pointer? id)

include hsize hpointer

theorem absorbedNodes_push : classes'.absorbedNodes = classes.absorbedNodes := by
  ext id
  simp only [absorbedNodes, hsize, Finset.mem_filter, Finset.mem_range, hpointer]
  by_cases heq : id = classes.size
  · simp [heq]
  · simp only [if_neg heq]
    constructor
    · exact fun h => ⟨Nat.lt_of_le_of_ne (Nat.le_of_lt_succ h.1) heq, h.2⟩
    · exact fun h => ⟨Nat.lt_succ_of_lt h.1, h.2⟩

omit hsize in
theorem Leads.push (h : classes.Leads id root) : classes'.Leads id root := by
  induction h with
  | here hroot =>
    refine .here ?_
    rw [IsRoot, hpointer, if_neg (Nat.ne_of_lt hroot.lt_size)]
    exact hroot
  | next hnext hother _ ih =>
    refine .next ?_ hother ih
    rw [hpointer, if_neg (Nat.ne_of_lt (lt_size_of_pointer? hnext))]
    exact hnext

theorem Forest.pushed (h : classes.Forest) : classes'.Forest := by
  obtain ⟨depth, hzero, hdepth, hcard⟩ := h.depth
  -- the new node has depth zero, and the others keep theirs
  refine ⟨fun id next hnext => ?_, fun id => if id = classes.size then 0 else depth id,
    fun id hid => ?_, fun id next hnext hother => ?_, fun id => ?_⟩
  · rw [hpointer] at hnext
    rw [hsize]
    split at hnext
    · cases hnext
      exact Nat.lt_succ_self _
    · exact Nat.lt_succ_of_lt (h.bounded id next hnext)
  · rw [IsRoot, hpointer] at hid
    split at hid
    · rename_i heq
      exact if_pos heq
    · rename_i heq
      exact (if_neg heq).trans (hzero id hid)
  · rw [hpointer] at hnext
    split at hnext
    · rename_i heq
      cases hnext
      exact absurd heq.symm hother
    · rename_i heq
      have hlt := h.bounded id next hnext
      dsimp only
      rw [if_neg (Nat.ne_of_lt hlt), if_neg heq]
      exact hdepth id next hnext hother
  · rw [absorbedNodes_push hsize hpointer]
    dsimp only
    split
    · exact Nat.zero_le _
    · exact hcard id

theorem Forest.push (h : classes.Forest) :
    classes'.Forest ∧ ∀ id, classes'.representative id = classes.representative id := by
  have hforest := h.pushed hsize hpointer
  refine ⟨hforest, fun id => ?_⟩
  by_cases hid : id < classes.size
  · exact hforest.representative_eq ((h.leads hid).push hpointer)
  · have hle := Nat.le_of_not_lt hid
    rw [representative_of_le hle]
    by_cases heq : id = classes.size
    · exact hforest.representative_root (by rw [IsRoot, hpointer, if_pos heq, heq])
    · refine representative_of_le ?_
      rw [hsize]
      exact Nat.lt_of_le_of_ne hle fun heq' => heq heq'.symm

end push

end Satisfiability.Equality.TermClasses
