import Mathlib.Data.List.Perm.Basic
import Mathlib.Tactic.FieldSimp
import Satisfiability.Linear.Basis
import Satisfiability.Proofs.Linear.Vector
import Satisfiability.Proofs.Traversal

/-!
# Factorisations

Elimination keeps, for each row, the equation between the row of the matrix, the multiples of the
pivot rows taken off so far, and what is left of the row (`productValues_factorise`). At the end the
rows form two triangles (`Triangular`), and the solutions with the triangles are solutions with the
matrix in both directions (`productValues_solve`, `dot_solveLowerTransposed`). If elimination finds
no pivot, some vector other than zero is taken to zero by every row (`exists_kernel_of_factorise`).

The shape of what is computed does not depend on the numbers and is shown for every scalar type.
-/

namespace Satisfiability.Linear.Basis

open Scalar

/-! ## Shapes -/

section shapes

variable {α : Type} [Scalar α] {negligible : α → Bool} {done columns : ℕ}
  {rows result : List (FactorRow α)} {a found : List α}

/-- All rows have as many entries below the diagonal as pivots are done, and one for each column to
come. -/
def Uniform (done columns : ℕ) (rows : List (FactorRow α)) : Prop :=
  ∀ row ∈ rows, row.lower.length = done ∧ row.upper.length = columns

/-- Each row has one more entry below the diagonal, and one fewer from the diagonal on, than the row
in front of it. -/
inductive Triangular : ℕ → ℕ → List (FactorRow α) → Prop
  | nil {done : ℕ} : Triangular done 0 []
  | cons {done columns : ℕ} {row : FactorRow α} {rows : List (FactorRow α)}
    (lower : row.lower.length = done) (upper : row.upper.length = columns + 1)
    (rest : Triangular (done + 1) columns rows) : Triangular done (columns + 1) (row :: rows)

omit [Scalar α] in
theorem Triangular.length (h : Triangular done columns rows) : rows.length = columns := by
  induction h with
  | nil => rfl
  | cons _ _ _ ih => rw [List.length_cons, ih]

omit [Scalar α] in
theorem perm_bringForward (rows : List (FactorRow α)) (index : ℕ) :
    (bringForward rows index).Perm rows := by
  unfold bringForward
  split
  · rename_i first rest pivot hpivot
    split
    · exact .refl _
    · rename_i hindex
      obtain ⟨i, rfl⟩ := Nat.exists_eq_succ_of_ne_zero hindex
      obtain ⟨hi, rfl⟩ := List.getElem?_eq_some_iff.1 hpivot
      exact ((List.set_perm_cons_eraseIdx (Nat.lt_of_succ_lt_succ hi) first).cons _).trans
        ((List.Perm.swap _ _ _).trans
          ((List.getElem_cons_eraseIdx_perm (Nat.lt_of_succ_lt_succ hi)).cons first))
  · exact .refl _

theorem Uniform.eliminate (h : Uniform done (columns + 1) rows) {pivot : FactorRow α}
    (hpivot : pivot.upper.length = columns + 1) :
    Uniform (done + 1) columns (rows.map (eliminate pivot)) := by
  intro row hmem
  obtain ⟨other, hother, rfl⟩ := List.mem_map.1 hmem
  obtain ⟨hlower, hupper⟩ := h other hother
  simp [Basis.eliminate, hlower, hupper, hpivot]

/-- Elimination brings a pivot row forward that is not negligible, and goes on with the other rows.
-/
theorem factorise_eq_some (h : factorise negligible (columns + 1) rows = some result) :
    ∃ pivot others rest, bringForward rows (pivotIndex rows) = pivot :: others ∧
      negligible (magnitude (lead pivot)) = false ∧
      factorise negligible columns (others.map (Basis.eliminate pivot)) = some rest ∧
      result = pivot :: rest := by
  unfold factorise at h
  split at h
  · cases h
  · rename_i pivot others hforward
    split at h
    · cases h
    · rename_i hnegligible
      obtain ⟨rest, hrest, rfl⟩ := Option.map_eq_some_iff.1 h
      exact ⟨pivot, others, rest, hforward, Bool.not_eq_true _ ▸ hnegligible, hrest, rfl⟩

theorem Uniform.of_bringForward (h : Uniform done (columns + 1) rows) (hlength : rows.length = columns + 1)
    {pivot : FactorRow α} {others : List (FactorRow α)}
    (hforward : bringForward rows (pivotIndex rows) = pivot :: others) :
    pivot.lower.length = done ∧ pivot.upper.length = columns + 1 ∧
      Uniform done (columns + 1) others ∧ others.length = columns := by
  have hperm := perm_bringForward rows (pivotIndex rows)
  rw [hforward] at hperm
  obtain ⟨hlower, hupper⟩ := h pivot (hperm.subset List.mem_cons_self)
  exact ⟨hlower, hupper, fun row hmem => h row (hperm.subset (List.mem_cons_of_mem _ hmem)),
    Nat.succ.inj (hperm.length_eq.trans hlength)⟩

theorem triangular_factorise (huniform : Uniform done columns rows) (hlength : rows.length = columns)
    (hresult : factorise negligible columns rows = some result) :
    Triangular done columns result ∧
      (result.map FactorRow.source).Perm (rows.map FactorRow.source) := by
  induction columns generalizing done rows result with
  | zero =>
    cases hresult
    rw [List.length_eq_zero_iff.1 hlength]
    exact ⟨.nil, .nil⟩
  | succ columns ih =>
    obtain ⟨pivot, others, rest, hforward, -, hrest, rfl⟩ := factorise_eq_some hresult
    obtain ⟨hlower, hupper, hothers, hlength'⟩ := huniform.of_bringForward hlength hforward
    obtain ⟨htriangular, hsources⟩ := ih (hothers.eliminate hupper)
      (by rw [List.length_map, hlength']) hrest
    have hperm := perm_bringForward rows (pivotIndex rows)
    rw [hforward] at hperm
    rw [List.map_map] at hsources
    exact ⟨.cons hlower hupper htriangular, (hsources.cons _).trans (hperm.map FactorRow.source)⟩

theorem exists_solveLower (found : List α) (hsources : ∀ row ∈ rows, row.source < a.length) :
    ∃ z, solveLower a found rows = some (found ++ z) ∧ z.length = rows.length := by
  induction rows generalizing found with
  | nil => exact ⟨[], by simp [solveLower], rfl⟩
  | cons row rows ih =>
    obtain ⟨hsource, hrest⟩ := List.forall_mem_cons.1 hsources
    obtain ⟨z, hz, hlength⟩ := ih (found ++ [a[row.source] - dot row.lower found]) hrest
    refine ⟨(a[row.source] - dot row.lower found) :: z, ?_, by rw [List.length_cons, hlength]; rfl⟩
    rw [solveLower, List.getElem?_eq_getElem hsource]
    simpa using hz

theorem length_solveUpper (h : rows.length = a.length) : (solveUpper rows a).length = rows.length := by
  induction rows generalizing a with
  | nil => rfl
  | cons row rows ih =>
    cases a with
    | nil => cases h
    | cons entry a => rw [solveUpper, List.length_cons, List.length_cons, ih (Nat.succ.inj h)]

theorem exists_solveUpperTransposed (found : List (List α × α)) (h : rows.length = a.length) :
    ∃ s, solveUpperTransposed found rows a = some s ∧ s.length = found.length + rows.length := by
  induction rows generalizing found a with
  | nil => exact ⟨found.map Prod.snd, rfl, by simp⟩
  | cons row rows ih =>
    cases a with
    | nil => cases h
    | cons entry a =>
      rw [solveUpperTransposed]
      obtain ⟨s, hs, hlength⟩ := ih _ (Nat.succ.inj h)
      refine ⟨s, hs, hlength.trans ?_⟩
      simp only [List.length_append, List.length_map, List.length_cons, List.length_nil]
      omega

theorem map_fst_solveLowerTransposed {number : ℕ} (h : rows.length = a.length) :
    (solveLowerTransposed number rows a).map Prod.fst = rows := by
  induction rows generalizing number a with
  | nil => rfl
  | cons row rows ih =>
    cases a with
    | nil => cases h
    | cons entry a => rw [solveLowerTransposed, List.map_cons, ih (Nat.succ.inj h)]

end shapes

/-! ## Exact elimination -/

variable {negligible : ℚ → Bool} {done columns : ℕ} {rows result : List (FactorRow ℚ)}
  {found x z a w s : List ℚ}

theorem pivotIndex_spec (hne : rows ≠ []) : ∃ row, rows[pivotIndex rows]? = some row ∧
    ∀ other ∈ rows, |lead other| ≤ |lead row| := by
  dsimp only [pivotIndex]
  generalize hfold : List.foldl _ none _ = best
  have hbest : Best (fun _ => True) (fun entry : ℚ × ℕ => (entry.2, entry.1))
      (fun a b => b.2 ≤ a.2) (rows.map fun row => Scalar.magnitude (lead row)).zipIdx best := by
    rw [← hfold]
    refine Chooses.best ?_ _
    refine ⟨fun _ _ hnot => absurd trivial hnot, fun _ _ => rfl, ?_, fun _ => le_refl _, ?_⟩
    · rintro ⟨index, magnitude⟩ item -
      by_cases hle : (Scalar.order magnitude item.1).isLE = true
      · exact Or.inl ⟨if_pos hle, Scalar.order_rat.1 hle⟩
      · exact Or.inr ⟨if_neg hle, (not_le.1 fun hge => hle (Scalar.order_rat.2 hge)).le⟩
    · exact fun _ _ _ hab hbc => le_trans hbc hab
  obtain ⟨hnone, hsome⟩ := best_zipIdx (fun _ => True) id (fun a b => b ≤ a) hbest
  cases best with
  | none =>
    obtain ⟨row, hrow⟩ := List.exists_mem_of_ne_nil rows hne
    exact absurd trivial (hnone rfl _ (List.mem_map_of_mem hrow))
  | some best =>
    obtain ⟨⟨magnitude, hmagnitude, -, hkey⟩, hall⟩ := hsome best.1 best.2 rfl
    rw [List.getElem?_map] at hmagnitude
    obtain ⟨row, hrow, rfl⟩ := Option.map_eq_some_iff.1 hmagnitude
    refine ⟨row, hrow, fun other hother => ?_⟩
    rw [← Scalar.magnitude_rat, ← Scalar.magnitude_rat]
    exact (hall _ (List.mem_map_of_mem hother) trivial).trans hkey.ge

theorem lead_bringForward {pivot : FactorRow ℚ} {others : List (FactorRow ℚ)}
    (h : bringForward rows (pivotIndex rows) = pivot :: others) :
    ∀ row ∈ rows, |lead row| ≤ |lead pivot| := by
  cases rows with
  | nil => exact List.forall_mem_nil _
  | cons first rest =>
    obtain ⟨row, hrow, hall⟩ := pivotIndex_spec (List.cons_ne_nil first rest)
    have hpivot : row = pivot := by
      unfold bringForward at h
      simp only [hrow] at h
      split at h
      · rename_i hzero
        rw [hzero] at hrow
        exact (Option.some.inj hrow).symm.trans (List.cons.inj h).1
      · exact (List.cons.inj h).1
    exact hpivot ▸ hall

/-- The values that the rows of two triangles take at a vector: with each number of a row of the
matrix the product of that row and the vector, put together from the values of the upper triangle.
-/
def productValues (found : List ℚ) : List (FactorRow ℚ) → List ℚ → List (ℕ × ℚ)
  | row :: rows, x =>
    let u := dot row.upper x
    (row.source, dot row.lower found + u) :: productValues (found ++ [u]) rows x.tail
  | [], _ => []

theorem map_fst_productValues (found : List ℚ) (rows : List (FactorRow ℚ)) (x : List ℚ) :
    (productValues found rows x).map Prod.fst = rows.map FactorRow.source := by
  induction rows generalizing found x with
  | nil => rfl
  | cons row rows ih => rw [productValues, List.map_cons, List.map_cons, ih]

theorem dot_upper (row : FactorRow ℚ) (x : List ℚ) :
    dot row.upper x = lead row * x.headD 0 + dot row.upper.tail x.tail :=
  Scalar.dot_eq_head_add_tail _ _

theorem dot_eliminate_upper {pivot row : FactorRow ℚ}
    (hupper : row.upper.length = pivot.upper.length) (hlead : lead pivot ≠ 0) (x : List ℚ) :
    dot (eliminate pivot row).upper x.tail =
      dot row.upper x - lead row / lead pivot * dot pivot.upper x := by
  have hfactor : lead row / lead pivot * lead pivot = lead row := div_mul_cancel₀ _ hlead
  rw [eliminate, Scalar.dot_zipWith_sub (by simp [hupper]), dot_upper pivot, dot_upper row]
  calc _ = (lead row - lead row / lead pivot * lead pivot) * x.headD 0 + (dot row.upper.tail x.tail -
        lead row / lead pivot * dot pivot.upper.tail x.tail) := by rw [hfactor, sub_self, zero_mul, zero_add]
    _ = _ := by ring

theorem dot_eliminate {pivot row : FactorRow ℚ} (hlower : row.lower.length = found.length)
    (hupper : row.upper.length = pivot.upper.length) (hlead : lead pivot ≠ 0) :
    dot (eliminate pivot row).lower (found ++ [dot pivot.upper x]) +
        dot (eliminate pivot row).upper x.tail =
      dot row.lower found + dot row.upper x := by
  rw [dot_eliminate_upper hupper hlead, eliminate, Scalar.dot_concat_concat hlower]
  ring

theorem lead_ne_zero (hnonzero : ∀ x, negligible x = false → x ≠ 0) {row : FactorRow ℚ}
    (h : negligible (magnitude (lead row)) = false) : lead row ≠ 0 := by
  have hmagnitude := hnonzero _ h
  rwa [Scalar.magnitude_rat, abs_ne_zero] at hmagnitude

theorem productValues_factorise (found : List ℚ) (hnonzero : ∀ x, negligible x = false → x ≠ 0)
    (huniform : Uniform found.length columns rows) (hlength : rows.length = columns)
    (hresult : factorise negligible columns rows = some result) (x : List ℚ) :
    (productValues found result x).Perm
      (rows.map fun row => (row.source, dot row.lower found + dot row.upper x)) := by
  induction columns generalizing found rows result x with
  | zero =>
    cases hresult
    rw [List.length_eq_zero_iff.1 hlength]
    exact .nil
  | succ columns ih =>
    obtain ⟨pivot, others, rest, hforward, hnegligible, hrest, rfl⟩ := factorise_eq_some hresult
    obtain ⟨-, hupper, hothers, hlength'⟩ := huniform.of_bringForward hlength hforward
    have huniform' : Uniform (found ++ [dot pivot.upper x]).length columns
        (others.map (eliminate pivot)) := by
      rw [List.length_append]
      exact hothers.eliminate hupper
    -- the rest is factorised with the value of the pivot row among those found
    have hvalues := ih _ huniform' (by rw [List.length_map, hlength']) hrest x.tail
    rw [List.map_map] at hvalues
    have hperm := perm_bringForward rows (pivotIndex rows)
    rw [hforward] at hperm
    refine List.Perm.trans (.cons _ hvalues) (List.Perm.trans (.of_eq ?_) (hperm.map _))
    rw [List.map_cons]
    congr 1
    refine List.map_congr_left fun row hmem => ?_
    obtain ⟨hlower', hupper'⟩ := hothers row hmem
    exact congrArg (Prod.mk row.source) (dot_eliminate hlower' (hupper'.trans hupper.symm)
      (lead_ne_zero hnonzero hnegligible))

/-- Where elimination stops for want of a pivot, all rows take some vector other than zero to zero.
-/
theorem exists_kernel_of_factorise (hzero : ∀ x, negligible x = true → x = 0)
    (huniform : Uniform done columns rows) (hlength : rows.length = columns)
    (hnone : factorise negligible columns rows = none) :
    ∃ x : List ℚ, x.length = columns ∧ (∃ entry ∈ x, entry ≠ 0) ∧ ∀ row ∈ rows, dot row.upper x = 0 := by
  induction columns generalizing done rows with
  | zero => cases hnone
  | succ columns ih =>
    unfold factorise at hnone
    split at hnone
    · rename_i hforward
      have hperm := perm_bringForward rows (pivotIndex rows)
      rw [hforward] at hperm
      rw [hperm.symm.eq_nil] at hlength
      cases hlength
    · rename_i pivot others hforward
      by_cases hlead : lead pivot = 0
      · -- every row begins with zero
        refine ⟨1 :: List.replicate columns 0, by simp, ⟨1, List.mem_cons_self, one_ne_zero⟩,
          fun row hmem => ?_⟩
        have hrow : lead row = 0 := by
          have hle := lead_bringForward hforward row hmem
          rwa [hlead, abs_zero, abs_nonpos_iff] at hle
        rw [Scalar.dot_cons_right, Scalar.dot_comm, Scalar.dot_replicate_zero]
        rw [lead, Scalar.zero_rat] at hrow
        rw [hrow]
        ring
      · -- the pivot row gives the first entry
        rw [if_neg fun hnegligible => hlead (by
          have hmagnitude := hzero _ hnegligible
          rwa [Scalar.magnitude_rat, abs_eq_zero] at hmagnitude), Option.map_eq_none_iff] at hnone
        obtain ⟨-, hupper, hothers, hlength'⟩ := huniform.of_bringForward hlength hforward
        obtain ⟨x, hx, ⟨entry, hentry, hne⟩, hkernel⟩ := ih (hothers.eliminate hupper)
          (by rw [List.length_map, hlength']) hnone
        have hpivot : dot pivot.upper (-(dot pivot.upper.tail x) / lead pivot :: x) = 0 := by
          rw [dot_upper, List.headD_cons, List.tail_cons, mul_div_cancel₀ _ hlead]
          ring
        refine ⟨-(dot pivot.upper.tail x) / lead pivot :: x, by rw [List.length_cons, hx],
          ⟨entry, List.mem_cons_of_mem _ hentry, hne⟩, fun row hmem => ?_⟩
        have hperm := perm_bringForward rows (pivotIndex rows)
        rw [hforward] at hperm
        rcases List.mem_cons.1 (hperm.symm.subset hmem) with rfl | hmem
        · exact hpivot
        · obtain ⟨hlower', hupper'⟩ := hothers row hmem
          have heliminated := dot_eliminate_upper (hupper'.trans hupper.symm) hlead
            (-(dot pivot.upper.tail x) / lead pivot :: x)
          rw [hpivot, mul_zero, sub_zero] at heliminated
          rw [← heliminated]
          exact hkernel _ (List.mem_map_of_mem hmem)

theorem lead_ne_zero_of_factorise (hnonzero : ∀ x, negligible x = false → x ≠ 0)
    (hresult : factorise negligible columns rows = some result) : ∀ row ∈ result, lead row ≠ 0 := by
  induction columns generalizing rows result with
  | zero =>
    cases hresult
    exact List.forall_mem_nil _
  | succ columns ih =>
    obtain ⟨pivot, others, rest, -, hnegligible, hrest, rfl⟩ := factorise_eq_some hresult
    exact List.forall_mem_cons.2 ⟨lead_ne_zero hnonzero hnegligible, ih hrest⟩

/-! ## Solutions -/

/-- The triangles take what is found for a vector to the vector. -/
theorem productValues_solve (hlead : ∀ row ∈ rows, lead row ≠ 0)
    (hsources : ∀ row ∈ rows, row.source < a.length)
    (hsolve : solveLower a found rows = some (found ++ z)) :
    productValues found rows (solveUpper rows z) =
      rows.map fun row => (row.source, a.getD row.source 0) := by
  induction rows generalizing found z with
  | nil => rfl
  | cons row rows ih =>
    obtain ⟨hrow, hrest⟩ := List.forall_mem_cons.1 hlead
    obtain ⟨hsource, hsources'⟩ := List.forall_mem_cons.1 hsources
    rw [solveLower, List.getElem?_eq_getElem hsource] at hsolve
    dsimp only at hsolve
    obtain ⟨z', hz', -⟩ := exists_solveLower
      (found ++ [a[row.source] - dot row.lower found]) hsources'
    obtain rfl : (a[row.source] - dot row.lower found) :: z' = z := by
      have heq := hz'.symm.trans hsolve
      rw [Option.some.injEq, List.append_assoc, List.append_cancel_left_eq] at heq
      exact heq
    have hupper : dot row.upper (solveUpper (row :: rows) ((a[row.source] - dot row.lower found) :: z')) =
        a[row.source] - dot row.lower found := by
      rw [dot_upper, solveUpper, List.headD_cons, List.tail_cons, mul_div_cancel₀ _ hrow]
      ring
    rw [productValues, hupper, List.map_cons, List.getD_eq_getElem _ _ hsource]
    congr 1
    · rw [add_sub_cancel]
    · exact ih hrest hsources' hz'

/-- The values that the rows of the upper triangle take at a vector. -/
def upperValues : List (FactorRow ℚ) → List ℚ → List ℚ
  | row :: rows, x => dot row.upper x :: upperValues rows x.tail
  | [], _ => []

/-- With what is found for the transposed upper triangle, the rows of this triangle add up to the
given ones; the rows found before count with what is left of them. -/
theorem dot_solveUpperTransposed {before : List (List ℚ × ℚ)} (h : Triangular done columns rows)
    (hlead : ∀ row ∈ rows, lead row ≠ 0) (hlength : w.length = columns)
    (hbefore : ∀ entry ∈ before, entry.1.length = columns)
    (hsolve : solveUpperTransposed before rows w = some s) :
    ∃ more, s = before.map Prod.snd ++ more ∧ ∀ x,
      Scalar.sum (before.map fun entry => entry.2 * dot entry.1 x) + dot more (upperValues rows x) =
        dot w x := by
  induction h generalizing before w with
  | nil =>
    cases hsolve
    refine ⟨[], by rw [List.append_nil], fun x => ?_⟩
    rw [Scalar.sum_map_eq_zero, List.length_eq_zero_iff.1 hlength]
    · simp
    · intro entry hmem
      rw [List.length_eq_zero_iff.1 (hbefore entry hmem), Scalar.dot_nil_left, mul_zero]
  | @cons done columns row rows _ hupper _ ih =>
    obtain ⟨entry, w, rfl⟩ := List.exists_cons_of_length_eq_add_one hlength
    obtain ⟨hrow, hrest⟩ := List.forall_mem_cons.1 hlead
    rw [solveUpperTransposed] at hsolve
    set above := Scalar.sum (before.map fun (tail, s) => tail.headD Scalar.zero * s) with habove
    obtain ⟨more, hs, hvalues⟩ := ih hrest (Nat.succ.inj hlength) (fun other hmem => by
      rcases List.mem_append.1 hmem with hmem | hmem
      · obtain ⟨previous, hprevious, rfl⟩ := List.mem_map.1 hmem
        rw [List.length_tail, hbefore previous hprevious, Nat.add_sub_cancel]
      · rw [List.mem_singleton.1 hmem, List.length_tail, hupper, Nat.add_sub_cancel]) hsolve
    refine ⟨(entry - above) / lead row :: more, by simp [hs], fun x => ?_⟩
    -- the first entries of the rows above go into the equation of this column
    have hsplit : Scalar.sum (before.map fun entry => entry.2 * dot entry.1 x) =
        x.headD 0 * above + Scalar.sum (before.map fun entry => entry.2 * dot entry.1.tail x.tail) := by
      rw [habove, ← Scalar.sum_map_mul_left, ← Scalar.sum_map_add]
      refine congrArg Scalar.sum (List.map_congr_left fun other _ => ?_)
      rw [Scalar.dot_eq_head_add_tail other.1, Scalar.zero_rat]
      ring
    have htail := hvalues x.tail
    rw [List.map_append, List.map_map, Scalar.sum_append_rat, List.map_singleton, Scalar.sum_cons_rat,
      Scalar.sum_nil_rat, add_zero] at htail
    have hpivot : (entry - above) / lead row * lead row = entry - above := div_mul_cancel₀ _ hrow
    rw [hsplit, upperValues, Scalar.dot_cons, Scalar.dot_cons_left, ← htail, dot_upper]
    calc _ = x.headD 0 * above + (entry - above) / lead row * lead row * x.headD 0 +
          (Scalar.sum (before.map fun entry => entry.2 * dot entry.1.tail x.tail) +
            (entry - above) / lead row * dot row.upper.tail x.tail + dot more (upperValues rows x.tail)) := by
          ring
      _ = _ := by
          rw [hpivot]
          simp only [Function.comp_def]
          ring

/-- With what is found for the transposed lower triangle, the rows of both triangles add up to what
the rows of the upper triangle do with the given entries. -/
theorem dot_solveLowerTransposed (found : List ℚ) (hlength : rows.length = s.length) (x : List ℚ) :
    dot ((solveLowerTransposed found.length rows s).map Prod.snd)
        ((productValues found rows x).map Prod.snd) =
      dot s (upperValues rows x) +
        Scalar.sum ((solveLowerTransposed found.length rows s).map fun entry =>
          entry.2 * dot entry.1.lower found) := by
  induction rows generalizing found s x with
  | nil => simp [solveLowerTransposed, productValues, upperValues, Scalar.sum_nil_rat]
  | cons row rows ih =>
    obtain ⟨entry, s, rfl⟩ := List.exists_cons_of_length_eq_add_one hlength.symm
    have hrest := ih (found ++ [dot row.upper x]) (Nat.succ.inj hlength) x.tail
    rw [List.length_append, List.length_singleton] at hrest
    set below := solveLowerTransposed (found.length + 1) rows s with hbelow
    have hsplit : Scalar.sum
        (below.map fun other => other.2 * dot other.1.lower (found ++ [dot row.upper x])) =
        Scalar.sum (below.map fun other => other.2 * dot other.1.lower found) + dot row.upper x *
          Scalar.sum (below.map fun (other, v) => other.lower.getD found.length Scalar.zero * v) := by
      rw [← Scalar.sum_map_mul_left, ← Scalar.sum_map_add]
      refine congrArg Scalar.sum (List.map_congr_left fun other _ => ?_)
      rw [Scalar.dot_concat, Scalar.zero_rat]
      ring
    rw [hsplit] at hrest
    rw [solveLowerTransposed, productValues, upperValues, ← hbelow]
    simp only [List.map_cons, Scalar.dot_cons, Scalar.sum_cons_rat, hrest]
    ring

end Satisfiability.Linear.Basis
