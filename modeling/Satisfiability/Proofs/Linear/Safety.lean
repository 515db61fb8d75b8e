import Satisfiability.Proofs.Linear.Improvement
import Satisfiability.Proofs.Linear.Stages

/-!
# Safety

Nothing here depends on the numbers. A pivot whose place, row and direction are in range leaves the
method intact (`Intact.pivot`), and what the ratio test, the candidates and the rows of least value
and greatest entry lead to is in range, however numbers compare (`ratioTest_lt`, `leastRow_lt`,
`greatestEntry_lt`). So every step of the method keeps it intact, also where it gives up
(`Standing.advance`), and so does any number of them (`Standing.walk`). A run is such a number of
steps (`run_walks`).
-/

namespace Satisfiability.Linear

open Scalar Step

variable {α : Type} [Scalar α] {program : Program α} {options : Options α}

theorem Basis.refactor_eq_error {negligible : α → Bool} {basis : Basis α} {columns : List (List α)}
    {cause : SimplexFault} (hwidth : columns.length = basis.size)
    (hheight : ∀ column ∈ columns, column.length = basis.size)
    (h : basis.refactor negligible columns = .error cause) : cause = .singularBasis := by
  have hdimension : ¬ (columns.length ≠ basis.size ∨ columns.any (·.length != basis.size) = true) := by
    rintro (hne | hany)
    · exact hne hwidth
    · obtain ⟨column, hmem, hne⟩ := List.any_eq_true.1 hany
      exact bne_iff_ne.1 hne (hheight column hmem)
  rw [refactor, if_neg hdimension] at h
  split at h
  · exact (Except.error.inj h).symm
  · cases h

namespace Simplex

variable {s : Simplex α} {direction : List α} {position row : ℕ}

/-! ## What is chosen is in range -/

/-- A fold that keeps its choice or takes the present place ends with one of the places. -/
theorem fst_lt_of_foldl {β γ : Type} {entries : List β} {step : Option (ℕ × γ) → β × ℕ → Option (ℕ × γ)}
    (hstep : ∀ best item, step best item = best ∨ ∃ x, step best item = some (item.2, x))
    {b : ℕ × γ} (h : entries.zipIdx.foldl step none = some b) : b.1 < entries.length := by
  have hfold : ∀ b, entries.zipIdx.foldl step none = some b → b.1 < entries.length := by
    refine List.foldlRecOn (motive := fun best => ∀ b, best = some b → b.1 < entries.length) _ step ?_ ?_
    · exact fun _ hnone => absurd hnone (by simp)
    · intro best hbest item hitem b hb
      rcases hstep best item with hsame | ⟨x, hx⟩
      · exact hbest b (hsame.symm.trans hb)
      · obtain rfl : (item.2, x) = b := Option.some.inj (hx.symm.trans hb)
        exact List.snd_lt_of_mem_zipIdx hitem
  exact hfold b h

theorem ratioTest_lt (h : s.ratioTest direction = some row) : row < s.values.length := by
  obtain ⟨b, hb, rfl⟩ := Option.map_eq_some_iff.1 h
  have hlt : b.1 < (direction.zip s.values).length := by
    refine fst_lt_of_foldl (fun best item => ?_) hb
    obtain ⟨⟨x, value⟩, i⟩ := item
    dsimp only
    split
    · exact Or.inl rfl
    · cases best with
      | none => exact Or.inr ⟨_, rfl⟩
      | some least =>
        dsimp only
        split
        · exact Or.inr ⟨_, rfl⟩
        · exact Or.inl rfl
  rw [List.length_zip] at hlt
  omega

theorem leastRow_lt {values : List α} (h : values ≠ []) : leastRow values < values.length := by
  rw [leastRow]
  cases hfold : values.zipIdx.foldl _ none with
  | none => exact List.length_pos_iff.2 h
  | some b =>
    refine fst_lt_of_foldl (fun best item => ?_) hfold
    cases best with
    | none => exact Or.inr ⟨_, rfl⟩
    | some least =>
      dsimp only
      split
      · exact Or.inr ⟨_, rfl⟩
      · exact Or.inl rfl

theorem greatestEntry_lt {y : List α} {x : α} (h : s.greatestEntry y = some (position, x)) :
    position < s.nonBasic.length := by
  refine fst_lt_of_foldl (fun best item => ?_) h
  dsimp only
  split
  · exact Or.inl rfl
  · cases best with
    | none => exact Or.inr ⟨_, rfl⟩
    | some greatest =>
      dsimp only
      split
      · exact Or.inr ⟨_, rfl⟩
      · exact Or.inl rfl

/-! ## Intact states -/

structure Intact (program : Program α) (s : Simplex α) : Prop where
  shaped : s.Shaped
  structural : s.structural = program.columns
  size : s.basis.size = program.constraints.length

/-- The causes for which the method gives up. An index out of range is none of them. -/
def GivesUp : Fault → Prop
  | .simplex .dimension => False
  | .simplex _ => True
  | _ => False

/-- From an intact state the operation leads to intact ones, also where it gives up. -/
def Keeps {β : Type} (program : Program α) (operation : Step (Simplex α) β) (s : Simplex α) : Prop :=
  Ends operation s (fun _ => Intact program) fun fault s' => GivesUp fault ∧ Intact program s'

theorem intact_ofProgram (h : program.WellFormed) : Intact program (ofProgram options program) :=
  ⟨shaped_ofProgram h, rfl, rfl⟩

omit [Scalar α] in
theorem Intact.pursuing (h : Intact program s) {costs : List α} (hcosts : costs.length = s.columns.length) :
    Intact program (s.pursuing costs) :=
  ⟨h.shaped.withCosts hcosts, h.structural, h.size⟩

theorem Intact.pivot (h : Intact program s) (hposition : position < s.nonBasic.length)
    (hrow : row < s.basis.size) (hdirection : direction.length = s.basis.size) :
    Keeps program (pivot position row direction) s := by
  have hentering := List.getElem?_eq_getElem hposition
  obtain ⟨leaving, x, value, hleaving, hx, hvalue⟩ := h.shaped.exists_row hdirection hrow
  have hexchanged := h.shaped.exchanged hentering hleaving hdirection (value / x)
  refine ends_mono (pivot_ends h.shaped hentering hleaving hvalue hx hdirection) ?_ ?_
  · rintro - s' ⟨basis, rfl, rfl | hrefactor⟩
    · exact ⟨hexchanged, h.structural, h.size⟩
    · -- the factors are new, but not their number
      have hsize : basis.size = s.basis.size := by
        obtain ⟨-, rows, -, rfl⟩ := Basis.refactor_eq_ok hrefactor
        rfl
      exact ⟨hexchanged.withBasis (Basis.shaped_refactor hrefactor) hsize, h.structural, hsize.trans h.size⟩
  · -- where the factors fail, the columns have been exchanged all the same
    rintro _ s' ⟨rfl, cause, rfl, hrefactor⟩
    obtain rfl := Basis.refactor_eq_error ((List.length_map _).trans hexchanged.basic)
      (List.forall_mem_map.2 fun j hj => hexchanged.length_column (hexchanged.lt_of_basic hj)) hrefactor
    exact ⟨trivial, hexchanged, h.structural, h.size⟩

/-! ## One step -/

structure Fits (s : Simplex α) (move : Move α) : Prop where
  position : move.position < s.nonBasic.length
  row : move.row < s.basis.size
  direction : move.direction.length = s.basis.size

theorem Shaped.exists_chooseMove (h : s.Shaped) {fallback : Option (Move α)} {candidates : List (Candidate α)}
    (hfallback : ∀ move, fallback = some move → s.Fits move)
    (hcandidates : ∀ c ∈ candidates, s.nonBasic[c.position]? = some c.column) :
    ∃ choice, s.chooseMove fallback candidates = some choice ∧ ∀ move, choice = .move move → s.Fits move := by
  -- on the candidates that are left; the fallback is in range all the time
  induction candidates generalizing fallback with
  | nil =>
    cases fallback with
    | none => exact ⟨.nothing, rfl, fun _ heq => by cases heq⟩
    | some move => exact ⟨.move move, rfl, fun _ heq => Choice.move.inj heq ▸ hfallback move rfl⟩
  | cons c rest ih =>
    obtain ⟨hc, hrest⟩ := List.forall_mem_cons.1 hcandidates
    have hcolumn := h.lt_of_nonBasic (List.mem_of_getElem? hc)
    obtain ⟨direction, hdirection, hlength⟩ := h.exists_direction hcolumn
    unfold chooseMove
    simp only [getElem?_columns hcolumn, hdirection, Option.bind_eq_bind, Option.bind_some]
    cases hrow : s.ratioTest direction with
    | none => exact ⟨.unbounded, rfl, fun _ heq => by cases heq⟩
    | some row =>
      have hlt : row < s.basis.size := h.values ▸ ratioTest_lt hrow
      have hfits : s.Fits ⟨c.position, row, direction⟩ :=
        ⟨(List.getElem?_eq_some_iff.1 hc).1, hlt, hlength⟩
      simp only [List.getElem?_eq_getElem (hlength.symm ▸ hlt), Option.bind_some]
      split
      · exact ⟨_, rfl, fun _ heq => Choice.move.inj heq ▸ hfits⟩
      · refine ih (fun move hmove => ?_) hrest
        cases fallback with
        | none => exact Option.some.inj hmove ▸ hfits
        | some earlier => exact hfallback move hmove

theorem Intact.improve (h : Intact program s) (withAuxiliary : Bool) :
    Keeps program (improve withAuxiliary) s := by
  -- there are prices, so there are candidates, and some choice is made from them
  have hcosts : (s.basic.map fun j => s.costs.getD j zero).length = s.basis.size :=
    (List.length_map _).trans h.shaped.basic
  obtain ⟨prices, hprices, -⟩ := h.shaped.basis.exists_backward hcosts
  obtain ⟨candidates, hcandidates, hmem, -⟩ := candidates_spec h.shaped withAuxiliary s.usesBland prices
  have hfallback : ∀ move, (none : Option (Move α)) = some move → s.Fits move :=
    fun _ hnone => by cases hnone
  obtain ⟨choice, hchoice, hfits⟩ := h.shaped.exists_chooseMove hfallback fun c hc => ((hmem c).1 hc).1
  simp only [Keeps, Simplex.improve, ends_bind, ends_get, h.shaped.mapM_costs zero]
  split
  · exact ⟨trivial, h⟩
  · simp only [ends_bind, ends_pure, hprices, entry_some, hcandidates]
    split
    · exact h
    · rw [hchoice, entry_some, ends_bind, ends_pure]
      cases choice with
      | unbounded => exact h
      | nothing => exact ⟨trivial, h⟩
      | move move =>
        obtain ⟨hposition, hrow, hdirection⟩ := hfits move rfl
        rw [ends_bind]
        exact ends_mono (h.pivot hposition hrow hdirection) (fun _ _ => id) fun _ _ => id

theorem Intact.expelAuxiliary (h : Intact program s) (hrow : row < s.basis.size) :
    Keeps program (expelAuxiliary row) s := by
  obtain ⟨y, hy, -⟩ := h.shaped.basis.exists_backward
    ((length_unit s.basic.length row (one : α)).trans h.shaped.basic)
  simp only [Keeps, Simplex.expelAuxiliary, ends_bind, ends_get, hy, entry_some, ends_pure]
  cases hbest : s.greatestEntry y with
  | none => exact h
  | some best =>
    obtain ⟨position, x⟩ := best
    have hposition := greatestEntry_lt hbest
    have hcolumn := h.shaped.lt_of_nonBasic (List.getElem_mem hposition)
    obtain ⟨direction, hdirection, hlength⟩ := h.shaped.exists_direction hcolumn
    dsimp only
    split
    · simp only [ends_bind, List.getElem?_eq_getElem hposition, entry_some, ends_pure,
        getElem?_columns hcolumn, hdirection]
      exact h.pivot hposition hrow hlength
    · exact h

def Complete (program : Program α) : Stage α → Prop
  | .finished (.optimal assignment _) => assignment.length = program.columns
  | _ => True

def Outside (s : Simplex α) : Stage α → Prop
  | .start => s.auxiliary ∈ s.nonBasic
  | _ => True

structure Standing (program : Program α) (stage : Stage α) (s : Simplex α) : Prop where
  intact : Intact program s
  outside : s.Outside stage
  complete : Complete program stage

omit [Scalar α] in
theorem length_foldl_set {places : List (ℕ × α)} {entries : List α} :
    (places.foldl (fun x (column, value) => x.set column value) entries).length = entries.length := by
  induction places generalizing entries with
  | nil => rfl
  | cons place places ih => exact ih.trans List.length_set

theorem length_assignment (s : Simplex α) : s.assignment.length = s.structural :=
  length_foldl_set.trans List.length_replicate

theorem Intact.admitAuxiliary (h : Intact program s) (houtside : s.auxiliary ∈ s.nonBasic)
    (hvalues : s.values ≠ []) : Keeps program admitAuxiliary s := by
  obtain ⟨position, hposition⟩ := Option.isSome_iff_exists.1 (List.isSome_idxOf?.2 houtside)
  obtain ⟨direction, hdirection, hlength⟩ := h.shaped.exists_direction h.shaped.auxiliary_lt
  simp only [Keeps, Simplex.admitAuxiliary, ends_bind, ends_get, hposition,
    getElem?_columns h.shaped.auxiliary_lt, entry_some, ends_pure, hdirection, ends_modify]
  refine ends_mono (h.pivot (List.idxOf?_eq_some_iff.1 hposition).1
    (h.shaped.values ▸ leastRow_lt hvalues) hlength) ?_ fun _ _ => id
  exact fun _ s' h' => h'.pursuing (length_unit _ _ _)

theorem Intact.settleAuxiliary (h : Intact program s) : Keeps program settleAuxiliary s := by
  simp only [Keeps, Simplex.settleAuxiliary, ends_bind, ends_get]
  cases hrow : s.basic.idxOf? s.auxiliary with
  | none => exact h
  | some row =>
    have hlt : row < s.basis.size := h.shaped.basic ▸ (List.idxOf?_eq_some_iff.1 hrow).1
    obtain ⟨_, _, value, -, -, hvalue⟩ := h.shaped.exists_row h.shaped.values hlt
    simp only [ends_bind, hvalue, entry_some, ends_pure]
    split
    · exact h
    · rw [ends_bind]
      exact ends_mono (h.expelAuxiliary hlt) (fun _ _ => id) fun _ _ => id

/-- A step keeps the method intact, also where it gives up. -/
theorem Standing.advance {stage : Stage α} (h : Standing program stage s) :
    Ends (advance stage) s (Standing program) fun fault s' => GivesUp fault ∧ Intact program s' := by
  cases stage with
  | start =>
    simp only [Simplex.advance, ends_bind, ends_get]
    split
    · -- some value is below zero, so there are rows
      rename_i hinfeasible
      have hvalues : s.values ≠ [] := by
        obtain ⟨value, hmem, -⟩ := List.any_eq_true.1 hinfeasible
        exact List.ne_nil_of_mem hmem
      rw [ends_bind]
      refine ends_mono (h.intact.admitAuxiliary h.outside hvalues) ?_ fun _ _ => id
      exact fun _ s' h' => ⟨h', trivial, trivial⟩
    · simp only [ends_bind, ends_modify, ends_pure]
      exact ⟨h.intact.pursuing h.intact.shaped.objective, trivial, trivial⟩
  | first =>
    simp only [Simplex.advance, ends_bind]
    refine ends_mono (h.intact.improve true) ?_ fun _ _ => id
    intro answer s₁ h₁
    rcases answer with _ | _ | _
    · exact ⟨h₁, trivial, trivial⟩
    · -- the auxiliary program is taken for unbounded
      exact ⟨trivial, h₁⟩
    · rw [continueFirst, ends_bind]
      refine ends_mono h₁.settleAuxiliary ?_ fun _ _ => id
      intro feasible s₂ h₂
      cases feasible with
      | false => exact ⟨h₂, trivial, trivial⟩
      | true => exact ⟨h₂.pursuing h₂.shaped.objective, trivial, trivial⟩
  | second =>
    simp only [Simplex.advance, ends_bind]
    refine ends_mono (h.intact.improve false) ?_ fun _ _ => id
    intro answer s₁ h₁
    rcases answer with _ | _ | _
    · exact ⟨h₁, trivial, trivial⟩
    · exact ⟨h₁, trivial, trivial⟩
    · exact ⟨h₁, trivial, (length_assignment s₁).trans h₁.structural⟩
  | finished outcome => exact h

theorem Standing.walk {stage : Stage α} (h : Standing program stage s) (n : ℕ) :
    Ends (walk n stage) s (Standing program) fun fault s' => GivesUp fault ∧ Intact program s' := by
  induction n generalizing stage s with
  | zero => exact h
  | succ n ih =>
    rw [Simplex.walk, ends_bind]
    exact ends_mono h.advance (fun _ _ h' => ih h') fun _ _ => id

/-! ## Every state of a run -/

/-- The columns of the program, the slack columns and the auxiliary one are in the basis or outside
it, each of them once. There is an entry for each row, or for each column, in every vector, also in
those that are computed on the way, and what is chosen is in range. -/
structure Safe (program : Program α) (s : Simplex α) : Prop where
  partition : (s.basic ++ s.nonBasic).Perm (List.range (program.columns + program.constraints.length + 1))
  width : s.columns.length = program.columns + program.constraints.length + 1
  height : ∀ column ∈ s.columns, column.length = program.constraints.length
  objective : s.objective.length = s.columns.length
  costs : s.costs.length = s.columns.length
  basic : s.basic.length = program.constraints.length
  values : s.values.length = program.constraints.length
  basis : s.basis.Shaped ∧ s.basis.size = program.constraints.length
  forward : ∀ a : List α, a.length = program.constraints.length →
    ∃ x, s.basis.forward? a = some x ∧ x.length = program.constraints.length
  backward : ∀ c : List α, c.length = program.constraints.length →
    ∃ y, s.basis.backward? c = some y ∧ y.length = program.constraints.length
  leaving : ∀ direction row, s.ratioTest direction = some row → row < program.constraints.length
  least : s.values ≠ [] → leastRow s.values < program.constraints.length
  greatest : ∀ y position x, s.greatestEntry y = some (position, x) → position < s.nonBasic.length

theorem Intact.safe (h : Intact program s) : Safe program s := by
  have hwidth : s.columns.length = program.columns + program.constraints.length + 1 := by
    rw [h.shaped.width, h.structural, h.size]
  have hvalues := h.shaped.values.trans h.size
  refine ⟨hwidth ▸ h.shaped.partition, hwidth, fun column hmem => (h.shaped.height column hmem).trans h.size,
    h.shaped.objective, h.shaped.costs, h.shaped.basic.trans h.size, hvalues, ⟨h.shaped.basis, h.size⟩,
    fun a ha => ?_, fun c hc => ?_, fun direction row hrow => ?_, fun hne => ?_,
    fun y position x => greatestEntry_lt⟩
  · rw [← h.size] at ha ⊢
    exact h.shaped.basis.exists_forward ha
  · rw [← h.size] at hc ⊢
    exact h.shaped.basis.exists_backward hc
  · exact hvalues ▸ ratioTest_lt hrow
  · exact hvalues ▸ leastRow_lt hne

/-- Whatever the numbers are, the program fits the method, every number of steps of the method leads
to a safe state, and a run is some number of them. So an answer has a value for each column, and the
method never asks for an entry that is not there. -/
theorem steps_safe (hprogram : program.Built) (options : Options α) :
    let start := ofProgram options program
    program.WellFormed ∧
    (∀ n, Ends (walk n .start) start (fun stage s => Safe program s ∧ Complete program stage)
      fun fault s => Safe program s ∧ GivesUp fault) ∧
    Ends run start
      (fun outcome s => Walks .start start (.ok (.finished outcome)) s ∧ Safe program s ∧
        Complete program (.finished outcome))
      fun fault s => Stops start fault s ∧ Safe program s ∧ (GivesUp fault ∨ fault = .outOfFuel) := by
  intro start
  have hstanding : Standing program .start start :=
    ⟨intact_ofProgram hprogram.wellFormed, List.mem_append_right _ (List.mem_singleton.2
      (shaped_ofProgram hprogram.wellFormed).auxiliary_eq), trivial⟩
  have hwalk := hstanding.walk
  refine ⟨hprogram.wellFormed, fun n => ?_, ends_mono (run_walks start) ?_ ?_⟩
  · exact ends_mono (hwalk n) (fun _ _ h => ⟨h.intact.safe, h.complete⟩) fun _ _ h => ⟨h.2.safe, h.1⟩
  · rintro outcome s ⟨n, hn⟩
    have h := ends_ok (hwalk n) hn
    exact ⟨⟨n, hn⟩, h.intact.safe, h.complete⟩
  · intro fault s hstops
    refine ⟨hstops, ?_⟩
    rcases hstops with ⟨n, hn⟩ | ⟨rfl, stage, n, hn⟩
    · have h := ends_error (hwalk n) hn
      exact ⟨h.2.safe, Or.inl h.1⟩
    · exact ⟨(ends_ok (hwalk n) hn).intact.safe, Or.inr rfl⟩

/-- A program over floating-point numbers with infinite and undefined entries. -/
def undefinedProgram : Program Float :=
  let first := (Program.addConstraint [(0, 1.0 / 0.0), (1, 0.0 / 0.0)] (-1.0)).run.run (.ofColumns 2)
  ((Program.addConstraint [(1, 2.0)] (0.0 / 0.0)).run.run first.2).2

theorem steps_safe_undefined : undefinedProgram.Built ∧
    ∀ n, Ends (walk n .start) (ofProgram (.ofConfig {}) undefinedProgram)
      (fun stage s => Safe undefinedProgram s ∧ Complete undefinedProgram stage)
      fun fault s => Safe undefinedProgram s ∧ GivesUp fault :=
  have hbuilt := ((Program.Built.ofColumns 2).addConstraint _ _).addConstraint _ _
  ⟨hbuilt, (steps_safe hbuilt (.ofConfig {})).2.1⟩

end Simplex

end Satisfiability.Linear
