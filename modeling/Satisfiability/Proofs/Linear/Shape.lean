import Satisfiability.Linear.Simplex
import Satisfiability.Proofs.Linear.Basis
import Satisfiability.Proofs.Linear.Program

/-!
# The shape of the method

Whatever the numbers are, the columns in the basis and those outside it are all columns, each of
them once, and every vector has one entry for each row or for each column (`Simplex.Shaped`). A
pivot exchanges two columns (`exchanged`), and may factorise the basis again (`pivot_ends`).
-/

namespace Satisfiability.Linear.Simplex

open Scalar Step

variable {α : Type} [Scalar α] {s s' : Simplex α} {program : Program α} {options : Options α}

def column (s : Simplex α) (j : ℕ) : List α := s.columns.getD j []

def basicColumns (s : Simplex α) : List (List α) := s.basic.map s.column

structure Shaped (s : Simplex α) : Prop where
  height : ∀ column ∈ s.columns, column.length = s.basis.size
  width : s.columns.length = s.structural + s.basis.size + 1
  objective : s.objective.length = s.columns.length
  costs : s.costs.length = s.columns.length
  basic : s.basic.length = s.basis.size
  values : s.values.length = s.basis.size
  partition : (s.basic ++ s.nonBasic).Perm (List.range s.columns.length)
  basis : s.basis.Shaped

namespace Shaped

omit [Scalar α]

theorem nodup (h : s.Shaped) : (s.basic ++ s.nonBasic).Nodup :=
  h.partition.nodup_iff.2 List.nodup_range

theorem nodup_basic (h : s.Shaped) : s.basic.Nodup := (List.nodup_append.1 h.nodup).1

theorem mem_set_basic (h : s.Shaped) {row leaving : ℕ} (hleaving : s.basic[row]? = some leaving)
    {entering j : ℕ} : j ∈ s.basic.set row entering ↔ j = entering ∨ j ≠ leaving ∧ j ∈ s.basic := by
  obtain ⟨hrow, rfl⟩ := List.getElem?_eq_some_iff.1 hleaving
  have hperm := List.getElem_cons_eraseIdx_perm hrow
  have hnodup := List.nodup_cons.1 (hperm.nodup_iff.2 h.nodup_basic)
  rw [(List.set_perm_cons_eraseIdx hrow entering).mem_iff, List.mem_cons, ← hperm.mem_iff, List.mem_cons]
  refine or_congr_right ⟨fun hmem => ⟨fun heq => hnodup.1 (heq ▸ hmem), Or.inr hmem⟩, ?_⟩
  exact fun hand => hand.2.resolve_left hand.1

theorem lt_of_basic (h : s.Shaped) {j : ℕ} (hmem : j ∈ s.basic) : j < s.columns.length :=
  List.mem_range.1 (h.partition.subset (List.mem_append_left _ hmem))

theorem lt_of_nonBasic (h : s.Shaped) {j : ℕ} (hmem : j ∈ s.nonBasic) : j < s.columns.length :=
  List.mem_range.1 (h.partition.subset (List.mem_append_right _ hmem))

theorem not_basic (h : s.Shaped) {j : ℕ} (hmem : j ∈ s.nonBasic) : j ∉ s.basic := fun hbasic =>
  (List.nodup_append.1 h.nodup).2.2 j hbasic j hmem rfl

theorem mem_nonBasic (h : s.Shaped) {j : ℕ} (hj : j < s.columns.length) (hbasic : j ∉ s.basic) :
    j ∈ s.nonBasic :=
  (List.mem_append.1 (h.partition.symm.subset (List.mem_range.2 hj))).resolve_left hbasic

theorem length_column (h : s.Shaped) {j : ℕ} (hj : j < s.columns.length) :
    (s.column j).length = s.basis.size := by
  rw [column, List.getD_eq_getElem _ _ hj]
  exact h.height _ (List.getElem_mem hj)

theorem exists_row (h : s.Shaped) {d : List α} (hd : d.length = s.basis.size) {i : ℕ}
    (hi : i < s.basis.size) : ∃ (j : ℕ) (y w : α),
      s.basic[i]? = some j ∧ d[i]? = some y ∧ s.values[i]? = some w :=
  ⟨_, _, _, List.getElem?_eq_getElem (h.basic ▸ hi), List.getElem?_eq_getElem (hd ▸ hi),
    List.getElem?_eq_getElem (h.values ▸ hi)⟩

theorem auxiliary_eq (h : s.Shaped) : s.auxiliary = s.structural + s.basis.size := by
  rw [auxiliary, h.width, Nat.add_sub_cancel]

theorem auxiliary_lt (h : s.Shaped) : s.auxiliary < s.columns.length := by
  rw [h.auxiliary_eq, h.width]
  exact Nat.lt_succ_self _

end Shaped

omit [Scalar α] in
theorem getElem?_columns {j : ℕ} (hj : j < s.columns.length) : s.columns[j]? = some (s.column j) := by
  rw [column, List.getD_eq_getElem _ _ hj, List.getElem?_eq_getElem hj]

omit [Scalar α] in
@[simp]
theorem entry_some {σ β : Type} (b : β) : (entry (some b) : Step σ β) = pure b := rfl

omit [Scalar α] in
theorem mapM_entry {σ β γ : Type} {f : β → Option γ} {g : β → γ} {items : List β}
    (h : ∀ b ∈ items, f b = some (g b)) :
    items.mapM (fun b => entry (f b)) = (pure (items.map g) : Step σ (List γ)) := by
  induction items with
  | nil => rfl
  | cons b items ih =>
    obtain ⟨hb, hrest⟩ := List.forall_mem_cons.1 h
    rw [List.mapM_cons, ih hrest, hb]
    rfl

omit [Scalar α] in
theorem Shaped.mapM_costs (h : s.Shaped) (x : α) : s.basic.mapM (fun j => entry s.costs[j]?) =
    (pure (s.basic.map fun j => s.costs.getD j x) : Step (Simplex α) (List α)) :=
  mapM_entry fun j hj => by
    have hlt : j < s.costs.length := h.costs ▸ h.lt_of_basic hj
    rw [List.getElem?_eq_getElem hlt, List.getD_eq_getElem _ _ hlt]

theorem Shaped.exists_direction (h : s.Shaped) {j : ℕ} (hj : j < s.columns.length) :
    ∃ d, s.basis.forward? (s.column j) = some d ∧ d.length = s.basis.size :=
  h.basis.exists_forward (h.length_column hj)

/-! ## The start -/

@[simp]
theorem length_unit (size index : ℕ) (x : α) : (unit size index x).length = size := by
  rw [unit, List.length_set, List.length_replicate]

theorem shaped_ofProgram (h : program.WellFormed) : (ofProgram options program).Shaped where
  height := by
    intro column hmem
    rcases List.mem_append.1 hmem with hmem | hmem
    · rcases List.mem_append.1 hmem with hmem | hmem
      · obtain ⟨j, -, rfl⟩ := List.mem_map.1 hmem
        exact List.length_map _
      · obtain ⟨i, -, rfl⟩ := List.mem_map.1 hmem
        exact length_unit _ _ _
    · rw [List.mem_singleton.1 hmem]
      exact List.length_replicate
  width := by simp [ofProgram, Basis.identity, Nat.add_assoc]
  objective := by simp [ofProgram, h.objective]
  costs := by simp [ofProgram, h.objective]
  basic := by simp [ofProgram, Basis.identity]
  values := by simp [ofProgram, Basis.identity]
  partition := by
    have hlength : (ofProgram options program).columns.length =
        program.columns + (program.constraints.length + 1) := by simp [ofProgram]
    have hsplit : List.range (program.columns + (program.constraints.length + 1)) =
        List.range program.columns ++ ((List.range program.constraints.length).map (program.columns + ·) ++
          [program.columns + program.constraints.length]) := by
      rw [List.range_add, List.range_succ, List.map_append, List.map_singleton]
    -- slack columns are basic, structural columns and the auxiliary one are not
    have hends : (ofProgram options program).basic ++ (ofProgram options program).nonBasic =
        (List.range program.constraints.length).map (program.columns + ·) ++ List.range program.columns ++
          [program.columns + program.constraints.length] := (List.append_assoc _ _ _).symm
    rw [hlength, hsplit, hends, ← List.append_assoc]
    exact List.perm_append_comm.append_right _
  basis := Basis.shaped_identity _

/-! ## What does not change -/

structure Retains (s t : Simplex α) : Prop where
  options : t.options = s.options
  columns : t.columns = s.columns
  structural : t.structural = s.structural
  objective : t.objective = s.objective
  blandAfter : t.blandAfter = s.blandAfter
  size : t.basis.size = s.basis.size

omit [Scalar α] in
theorem Retains.refl (s : Simplex α) : Retains s s := ⟨rfl, rfl, rfl, rfl, rfl, rfl⟩

omit [Scalar α] in
theorem Retains.column (h : Retains s s') : s'.column = s.column := by
  funext j
  rw [Simplex.column, Simplex.column, h.columns]

omit [Scalar α] in
theorem Retains.auxiliary (h : Retains s s') : s'.auxiliary = s.auxiliary := by
  rw [Simplex.auxiliary, Simplex.auxiliary, h.columns]

/-! ## Pivots -/

/-- The method with the entering column in the basis for a row, in place of the leaving one, and the
step made. -/
def exchanged (s : Simplex α) (position row : ℕ) (direction : List α) (entering leaving : ℕ) (step : α) :
    Simplex α :=
  { s with
    values := (List.zipWith (fun value x => value - step * x) s.values direction).set row step
    basic := s.basic.set row entering
    nonBasic := s.nonBasic.set position leaving
    basis := s.basis.pushEta row direction
    iterations := s.iterations + 1 }

def withBasis (s : Simplex α) (basis : Basis α) : Simplex α := { s with basis }

omit [Scalar α] in
theorem perm_exchange {position row entering leaving : ℕ} (hentering : s.nonBasic[position]? = some entering)
    (hleaving : s.basic[row]? = some leaving) :
    (s.basic.set row entering ++ s.nonBasic.set position leaving).Perm (s.basic ++ s.nonBasic) := by
  obtain ⟨hposition, rfl⟩ := List.getElem?_eq_some_iff.1 hentering
  obtain ⟨hrow, rfl⟩ := List.getElem?_eq_some_iff.1 hleaving
  set entering := s.nonBasic[position]
  set leaving := s.basic[row]
  calc (s.basic.set row entering ++ s.nonBasic.set position leaving).Perm
        ((entering :: s.basic.eraseIdx row) ++ (leaving :: s.nonBasic.eraseIdx position)) :=
        (List.set_perm_cons_eraseIdx hrow _).append (List.set_perm_cons_eraseIdx hposition _)
    _ |>.Perm ((leaving :: s.basic.eraseIdx row) ++ (entering :: s.nonBasic.eraseIdx position)) :=
        (List.perm_middle.cons entering).trans
          ((List.Perm.swap _ _ _).trans (List.perm_middle.symm.cons leaving))
    _ |>.Perm (s.basic ++ s.nonBasic) :=
        (List.getElem_cons_eraseIdx_perm hrow).append (List.getElem_cons_eraseIdx_perm hposition)

omit [Scalar α] in
theorem Shaped.withBasis (h : s.Shaped) {basis : Basis α} (hbasis : basis.Shaped)
    (hsize : basis.size = s.basis.size) : (s.withBasis basis).Shaped where
  height := fun column hmem => (h.height column hmem).trans hsize.symm
  width := h.width.trans (by rw [← hsize]; rfl)
  objective := h.objective
  costs := h.costs
  basic := h.basic.trans hsize.symm
  values := h.values.trans hsize.symm
  partition := h.partition
  basis := hbasis

omit [Scalar α] in
theorem Shaped.withCosts (h : s.Shaped) {costs : List α} (hcosts : costs.length = s.columns.length) :
    Shaped { s with costs } :=
  ⟨h.height, h.width, h.objective, hcosts, h.basic, h.values, h.partition, h.basis⟩

section pivot

variable {position row entering leaving : ℕ} {direction : List α} {value x : α}

theorem Shaped.exchanged (h : s.Shaped) (hentering : s.nonBasic[position]? = some entering)
    (hleaving : s.basic[row]? = some leaving) (hdirection : direction.length = s.basis.size) (step : α) :
    (s.exchanged position row direction entering leaving step).Shaped where
  height := h.height
  width := h.width
  objective := h.objective
  costs := h.costs
  basic := (List.length_set).trans h.basic
  values := by simp [Simplex.exchanged, h.values, hdirection, Basis.pushEta]
  partition := (perm_exchange hentering hleaving).trans h.partition
  basis := h.basis.pushEta (h.basic ▸ (List.getElem?_eq_some_iff.1 hleaving).1) hdirection

/-- What a pivot ends in: the columns are exchanged, and if there are too many eta matrices the new
columns are factorised. -/
theorem pivot_ends (h : s.Shaped) (hentering : s.nonBasic[position]? = some entering)
    (hleaving : s.basic[row]? = some leaving) (hvalue : s.values[row]? = some value)
    (hx : direction[row]? = some x) (hdirection : direction.length = s.basis.size) :
    let t := s.exchanged position row direction entering leaving (value / x)
    Ends (pivot position row direction) s
      (fun _ s' => ∃ basis, s' = t.withBasis basis ∧
        (basis = t.basis ∨ t.basis.refactor s.options.negligible t.basicColumns = .ok basis))
      fun fault s' => s' = t ∧ ∃ cause, fault = .simplex cause ∧
        t.basis.refactor s.options.negligible t.basicColumns = .error cause := by
  intro t
  have ht : t.Shaped := h.exchanged hentering hleaving hdirection _
  have hcolumns : t.basic.mapM (fun j => entry t.columns[j]?) =
      (pure t.basicColumns : Step (Simplex α) (List (List α))) :=
    mapM_entry fun j hj => getElem?_columns (ht.lt_of_basic hj)
  simp only [pivot, ends_bind, ends_get, hentering, hleaving, hvalue, hx, entry, ends_pure, ends_set]
  change Ends (if s.options.etaLimit < t.basis.etas.length then _ else _) t _ _
  split
  · simp only [ends_bind, ends_get]
    change Ends (t.basic.mapM fun j => entry t.columns[j]?) t _ _
    rw [hcolumns, ends_pure]
    cases hrefactor : t.basis.refactor t.options.negligible t.basicColumns with
    | ok basis => exact ⟨basis, rfl, Or.inr hrefactor⟩
    | error cause => exact ⟨rfl, cause, rfl, hrefactor⟩
  · exact ⟨t.basis, rfl, Or.inl rfl⟩

end pivot

end Satisfiability.Linear.Simplex
