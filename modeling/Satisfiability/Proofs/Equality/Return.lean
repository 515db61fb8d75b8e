import Mathlib.Logic.Function.Iterate
import Satisfiability.Proofs.Equality.Interning

/-!
# Classes that can be returned to

From the present classes one can go back checkpoint by checkpoint (`back`). All classes on the way
have nodes of the same terms (`sameTerms_iterate_back`), and a merge changes nothing that lies
behind (`Merged.iterate_back`). A node that is newer than the merges undone stays on the roots where
it was put, whatever the classes are there (`Logged.iterate_back_grow`).
-/

namespace Satisfiability.Equality

def Merge.Below (merge : Merge) (size : Nat) : Prop :=
  merge.absorbed < size ∧ merge.representative < size ∧ ∀ parent ∈ merge.addedParents, parent < size

namespace TermClasses

variable {classes classes' : TermClasses} {id : NodeId} {symbol : String}
  {arguments roots : List NodeId} {merge : Merge}

/-- The classes at the newest checkpoint, or the present ones if there is none. -/
def back (classes : TermClasses) : TermClasses := classes.restore?.getD classes

/-! ## Undoing keeps the nodes -/

theorem sameTerms_undo (merge : Merge) : classes.SameTerms (classes.undo merge) :=
  ((SameTerms.refl classes).modify fun _ => by rfl).modify fun _ => by rfl

theorem sameTerms_foldl_undo (log : List Merge) : classes.SameTerms (log.foldl undo classes) := by
  induction log generalizing classes with
  | nil => exact .refl _
  | cons merge rest ih => exact (sameTerms_undo merge).trans ih

/-! ## Going back -/

theorem back_of_nil (h : classes.checkpoints = []) : classes.back = classes := by
  rw [back, restore?_eq, h, Option.getD_none]

theorem back_of_cons {log : List Merge} {checkpoints : List (List Merge)}
    (h : classes.checkpoints = log :: checkpoints) :
    classes.back = ⟨(classes.log.foldl undo classes).nodes, log, checkpoints⟩ := by
  rw [back, restore?_eq, h, Option.getD_some]

theorem sameTerms_back : classes.SameTerms classes.back := by
  cases hcheckpoints : classes.checkpoints with
  | nil => rw [back_of_nil hcheckpoints]; exact .refl _
  | cons log checkpoints =>
    rw [back_of_cons hcheckpoints]
    exact ⟨(sameTerms_foldl_undo _).size, (sameTerms_foldl_undo _).term⟩

theorem sameTerms_iterate_back (n : Nat) : classes.SameTerms (back^[n] classes) := by
  induction n generalizing classes with
  | zero => exact .refl _
  | succ n ih => exact sameTerms_back.trans ih

theorem size_iterate_back (n : Nat) : (back^[n] classes).size = classes.size :=
  (sameTerms_iterate_back n).size

theorem iterate_back_of_le {n : Nat} (h : classes.checkpoints.length ≤ n) :
    back^[n] classes = back^[classes.checkpoints.length] classes := by
  induction n generalizing classes with
  | zero => rw [Nat.le_zero.1 h]
  | succ n ih =>
    cases hcheckpoints : classes.checkpoints with
    | nil => exact Function.iterate_fixed (back_of_nil hcheckpoints) (n + 1)
    | cons log checkpoints =>
      have hback : classes.back.checkpoints = checkpoints := by rw [back_of_cons hcheckpoints]
      rw [hcheckpoints] at h
      have hrest : classes.back.checkpoints.length ≤ n := hback ▸ Nat.le_of_succ_le_succ h
      rw [Function.iterate_succ_apply, ih hrest, hback]
      rfl

theorem Merged.iterate_back (h : classes.Merged classes') : (∀ n, back^[n] classes' = classes') ∨
    ∀ n, back^[n + 1] classes' = back^[n + 1] classes := by
  cases hrestore : classes.restore? with
  | none =>
    left
    exact Function.iterate_fixed (by rw [back, h.restore, hrestore, Option.getD_none])
  | some restored =>
    refine Or.inr fun n => ?_
    rw [Function.iterate_succ_apply, Function.iterate_succ_apply, back, back, h.restore, hrestore,
      Option.getD_some, Option.getD_some]

/-! ## What is to be undone -/

def Logged (classes : TermClasses) : Prop :=
  ∀ log ∈ classes.log :: classes.checkpoints, ∀ merge ∈ log, merge.Below classes.size

theorem Logged.of_le (h : classes.Logged) (hsize : classes.size ≤ classes'.size)
    (hlog : classes'.log = classes.log) (hcheckpoints : classes'.checkpoints = classes.checkpoints) :
    classes'.Logged := by
  intro log hmem merge hmerge
  rw [hlog, hcheckpoints] at hmem
  obtain ⟨habsorbed, hroot, hparents⟩ := h log hmem merge hmerge
  exact ⟨Nat.lt_of_lt_of_le habsorbed hsize, Nat.lt_of_lt_of_le hroot hsize,
    fun parent hparent => Nat.lt_of_lt_of_le (hparents parent hparent) hsize⟩

theorem Logged.restored (h : classes.Logged) : classes.back.Logged := by
  intro log hmem merge hmerge
  rw [sameTerms_back.size]
  refine h log ?_ merge hmerge
  cases hcheckpoints : classes.checkpoints with
  | nil => rwa [back_of_nil hcheckpoints, hcheckpoints] at hmem
  | cons newest checkpoints =>
    rw [back_of_cons hcheckpoints] at hmem
    exact List.mem_cons_of_mem _ hmem

theorem Valid.logged_absorb {absorbed root : NodeId} (h : classes.Valid)
    (habsorbed : classes.IsRoot absorbed) (hroot : classes.IsRoot root)
    (hlogged : classes.Logged) : (classes.absorb absorbed root).Logged := by
  have hnew : Merge.Below ⟨absorbed, root, (classes.parents absorbed).toList.filter fun parent =>
      !(classes.parents root).toList.contains parent⟩ classes.size := by
    refine ⟨habsorbed.lt_size, hroot.lt_size, fun parent hparent => ?_⟩
    exact h.lt_size_of_mem_parents habsorbed (List.mem_filter.1 hparent).1
  intro log hmem merge hmerge
  rw [sameTerms_absorb.size]
  rcases List.mem_cons.1 hmem with rfl | hmem
  · rcases List.mem_cons.1 hmerge with rfl | hmerge
    · exact hnew
    · exact hlogged _ List.mem_cons_self merge hmerge
  · exact hlogged log (List.mem_cons_of_mem _ hmem) merge hmerge

theorem Merges.logged {merges : Nat} {pending : List (NodeId × NodeId)}
    {result : Nat × TermClasses} (hmerges : classes.Merges merges pending result)
    (h : classes.Valid) (hlogged : classes.Logged) : result.2.Logged := by
  induction hmerges with
  | done => exact hlogged
  | equal _ _ _ ih => exact ih h hlogged
  | absorb ha hb hne _ _ ih =>
    exact ih (h.absorb ha.isRoot hb.isRoot hne).1 (h.logged_absorb ha.isRoot hb.isRoot hlogged)

/-! ## One more node -/

theorem foldl_erase_insert {set : IndexSet} {indices : List Nat} {n : Nat}
    (h : n ∉ indices) : indices.foldl IndexSet.erase (set.insert n) =
      (indices.foldl IndexSet.erase set).insert n := by
  refine IndexSet.ext_mem fun x => ?_
  rw [mem_foldl_erase, IndexSet.mem_insert, IndexSet.mem_insert, mem_foldl_erase]
  by_cases hx : x = n
  · simp [hx, h]
  · simp [hx]

/-- A node that is newer than a merge stays where it was put when the merge is undone. -/
theorem undo_grow (h : merge.Below classes.size) :
    (classes.grow symbol arguments roots).undo merge =
      (classes.undo merge).grow symbol arguments roots := by
  obtain ⟨habsorbed, hroot, hparents⟩ := h
  have hsize : (classes.undo merge).size = classes.size := (sameTerms_undo merge).size
  have hnew : classes.size ∉ merge.addedParents := fun hmem => Nat.lt_irrefl _ (hparents _ hmem)
  refine ext_nodes (fun id => ?_) rfl rfl
  -- the node is none of those the merge was about, and none of the parents to be erased
  rw [getElem?_grow, hsize]
  simp only [undo, getElem?_modify, getElem?_grow, getElem?_addParents]
  by_cases hid : id = classes.size
  · rw [if_pos hid, if_pos hid, if_neg (hid ▸ Nat.ne_of_lt hroot),
      if_neg (hid ▸ Nat.ne_of_lt habsorbed)]
  · rw [if_neg hid, if_neg hid]
    cases classes.nodes[id]? with
    | none => simp
    | some node =>
      by_cases hmem : id ∈ roots <;> by_cases hid' : merge.representative = id <;>
        by_cases hid'' : merge.absorbed = id <;>
          simp [hmem, hid', hid'', foldl_erase_insert hnew]

theorem foldl_undo_grow {log : List Merge} (h : ∀ merge ∈ log, merge.Below classes.size) :
    log.foldl undo (classes.grow symbol arguments roots) =
      (log.foldl undo classes).grow symbol arguments roots := by
  induction log generalizing classes with
  | nil => rfl
  | cons merge rest ih =>
    rw [List.foldl_cons, List.foldl_cons, undo_grow (h merge List.mem_cons_self)]
    refine ih fun other hmem => ?_
    rw [(sameTerms_undo merge).size]
    exact h other (List.mem_cons_of_mem _ hmem)

theorem Logged.back_grow (h : classes.Logged) : (classes.grow symbol arguments roots).back =
    classes.back.grow symbol arguments roots := by
  cases hcheckpoints : classes.checkpoints with
  | nil =>
    have hgrown : (classes.grow symbol arguments roots).checkpoints = [] := hcheckpoints
    rw [back_of_nil hcheckpoints, back_of_nil hgrown]
  | cons log checkpoints =>
    have hgrown : (classes.grow symbol arguments roots).checkpoints = log :: checkpoints :=
      hcheckpoints
    have hundone : classes.log.foldl undo (classes.grow symbol arguments roots) =
        (classes.log.foldl undo classes).grow symbol arguments roots :=
      foldl_undo_grow (h _ List.mem_cons_self)
    rw [back_of_cons hcheckpoints, back_of_cons hgrown]
    exact congrArg (fun undone => TermClasses.mk undone.nodes log checkpoints) hundone

theorem Logged.iterate_back_grow (h : classes.Logged) (n : Nat) :
    back^[n] (classes.grow symbol arguments roots) =
      (back^[n] classes).grow symbol arguments roots := by
  induction n generalizing classes with
  | zero => rfl
  | succ n ih => rw [Function.iterate_succ_apply, h.back_grow, ih h.restored, Function.iterate_succ_apply]

end TermClasses

end Satisfiability.Equality
