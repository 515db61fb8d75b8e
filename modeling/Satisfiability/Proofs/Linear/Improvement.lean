import Satisfiability.Proofs.Linear.Tableau
import Satisfiability.Proofs.Traversal

/-!
# Pivots towards a greater value

The candidates are the columns outside the basis whose rate is above zero, in order
(`candidates_spec`). The ratio test finds a row that bounds the step, unless nothing falls
(`ratioTest_spec`). With exact numbers the first candidate is taken, so `improve` ends in one of
three ways: no rate is above zero, or nothing falls when some column enters, or a pivot is made,
which follows the rule of the smallest column where that rule is used (`Sound.improve`).
-/

namespace Satisfiability.Linear.Simplex

open Scalar Step

section candidates

variable {α : Type} [Scalar α] {s : Simplex α} {withAuxiliary bland : Bool} {prices : List α}

/-- The columns that raise the value, in the order in which they are to be tried. -/
theorem candidates_spec (h : s.Shaped) (withAuxiliary bland : Bool) (prices : List α) :
    ∃ list, s.candidates withAuxiliary bland prices = some list ∧
      (∀ c, c ∈ list ↔ s.nonBasic[c.position]? = some c.column ∧
        c.reduced = s.costs.getD c.column zero - dot prices (s.column c.column) ∧
        (withAuxiliary = true ∨ c.column ≠ s.auxiliary) ∧
        less s.options.feasibilityTolerance c.reduced = true) ∧
      (bland = true → list.Pairwise fun a b => a.column ≤ b.column) := by
  set candidate : ℕ × ℕ → Candidate α := fun place =>
    ⟨place.2, place.1, s.costs.getD place.1 zero - dot prices (s.column place.1)⟩ with hcandidate
  -- no lookup fails, so the list is what is computed for each place
  have hall : s.nonBasic.zipIdx.mapM (fun place => do
      let entries ← s.columns[place.1]?
      let cost ← s.costs[place.1]?
      return (⟨place.2, place.1, cost - Scalar.dot prices entries⟩ : Candidate α)) =
        some (s.nonBasic.zipIdx.map candidate) := by
    rw [mapM_eq_some_iff, List.forall₂_map_right_iff]
    refine List.forall₂_same.2 fun place hmem => ?_
    have hj : place.1 < s.columns.length := h.lt_of_nonBasic (List.fst_mem_of_mem_zipIdx hmem)
    have hcost : s.costs[place.1]? = some (s.costs.getD place.1 zero) := by
      rw [List.getElem?_eq_getElem (h.costs ▸ hj), List.getD_eq_getElem]
    simp only [getElem?_columns hj, hcost]
    rfl
  refine ⟨_, congrArg (Option.bind · _) hall, fun c => ?_, fun hbland => ?_⟩
  · rw [List.mem_mergeSort, List.mem_filter, List.mem_map]
    simp only [Bool.and_eq_true, Bool.or_eq_true, bne_iff_ne]
    constructor
    · rintro ⟨⟨place, hmem, rfl⟩, hallowed, himproving⟩
      exact ⟨List.mem_zipIdx_iff_getElem?.1 hmem, rfl, hallowed, himproving⟩
    · rintro ⟨hposition, hreduced, hallowed, himproving⟩
      refine ⟨⟨(c.column, c.position), List.mem_zipIdx_iff_getElem?.2 hposition, ?_⟩, hallowed, himproving⟩
      exact congrArg (Candidate.mk c.position c.column) hreduced.symm
  · subst hbland
    refine (List.pairwise_mergeSort (fun a b c hab hbc => ?_) (fun a b => ?_) _).imp fun {a b} hle => ?_
    · simp only [if_pos, Nat.isLE_compare] at hab hbc ⊢
      exact Nat.le_trans hab hbc
    · simp only [if_pos, Nat.isLE_compare, Bool.or_eq_true]
      exact Nat.le_total _ _
    · simpa only [if_pos, Nat.isLE_compare, decide_eq_true_eq] using hle

end candidates

/-! ## The ratio test -/

variable {start s s' : Simplex ℚ} {costs d : List ℚ} {entering : ℕ}

/-- The order of the ratio test: by the ratio, and then by the column. -/
def ratioLE (s : Simplex ℚ) (a b : ℕ × ℚ) : Prop :=
  a.2 < b.2 ∨ a.2 = b.2 ∧ s.basic.getD a.1 0 ≤ s.basic.getD b.1 0

theorem leavesBefore_iff {row other : ℕ} {ratio best : ℚ} :
    s.leavesBefore row ratio other best = true ↔
      ratio < best ∨ ratio = best ∧ s.basic.getD row 0 < s.basic.getD other 0 := by
  simp [leavesBefore]

/-- Of the rows whose entry is above the threshold the ratio test finds the one with the least
ratio, and of several rows that have it the one with the smallest column. -/
theorem ratioTest_least :
    (∀ row, s.ratioTest d = some row → ∃ x value, d[row]? = some x ∧ s.values[row]? = some value ∧
      s.options.ratioThreshold < x ∧ ∀ (i : ℕ) (y w : ℚ), d[i]? = some y → s.values[i]? = some w →
        s.options.ratioThreshold < y →
        s.ratioLE (row, positivePart value / x) (i, positivePart w / y)) ∧
    (s.ratioTest d = none → ∀ (i : ℕ) (y w : ℚ), d[i]? = some y → s.values[i]? = some w →
      y ≤ s.options.ratioThreshold) := by
  have hitem : ∀ {x value : ℚ} {i : ℕ},
      ((x, value), i) ∈ (d.zip s.values).zipIdx ↔ d[i]? = some x ∧ s.values[i]? = some value := by
    intro x value i
    rw [List.mem_zipIdx_iff_getElem?, List.getElem?_zip_eq_some]
  unfold ratioTest
  dsimp only
  generalize hfold : List.foldl _ none _ = best
  -- the fold keeps the least in the order by ratio and then by column
  have hbest : Best (fun item : (ℚ × ℚ) × ℕ => s.options.ratioThreshold < item.1.1)
      (fun item => (item.2, positivePart item.1.2 / item.1.1)) s.ratioLE (d.zip s.values).zipIdx best := by
    rw [← hfold]
    refine Chooses.best ⟨?_, ?_, ?_, ?_, ?_⟩ _
    · intro best item hnot
      exact if_pos (by rw [atMost_rat, decide_eq_true (not_lt.1 hnot)])
    · intro item hexceeds
      exact if_neg (by rw [atMost_rat, decide_eq_false (not_le.2 hexceeds)]; exact Bool.false_ne_true)
    · intro best item hexceeds
      rw [if_neg (by rw [atMost_rat, decide_eq_false (not_le.2 hexceeds)]; exact Bool.false_ne_true)]
      by_cases hbefore : s.leavesBefore item.2 (positivePart item.1.2 / item.1.1) best.1 best.2 = true
      · exact Or.inl ⟨if_pos hbefore, (leavesBefore_iff.1 hbefore).imp_right fun hand =>
          ⟨hand.1, hand.2.le⟩⟩
      · refine Or.inr ⟨if_neg hbefore, ?_⟩
        rw [leavesBefore_iff, not_or, not_lt, not_and, not_lt] at hbefore
        rcases hbefore.1.lt_or_eq with hlt | heq
        · exact Or.inl hlt
        · exact Or.inr ⟨heq, hbefore.2 heq.symm⟩
    · exact fun _ => Or.inr ⟨rfl, Nat.le_refl _⟩
    · rintro a b c (hab | ⟨hab, hab'⟩) (hbc | ⟨hbc, hbc'⟩)
      · exact Or.inl (hab.trans hbc)
      · exact Or.inl (hbc ▸ hab)
      · exact Or.inl (hab ▸ hbc)
      · exact Or.inr ⟨hab.trans hbc, Nat.le_trans hab' hbc'⟩
  cases best with
  | none =>
    refine ⟨fun row h => absurd h (by simp), fun _ i y w hy hw => ?_⟩
    exact not_lt.1 (hbest ((y, w), i) (hitem.2 ⟨hy, hw⟩))
  | some best =>
    refine ⟨fun row h => ?_, fun h => absurd h (by simp)⟩
    obtain ⟨⟨⟨⟨x, value⟩, i⟩, hmem, hexceeds, rfl⟩, hall⟩ := hbest
    obtain rfl : i = row := Option.some.inj h
    obtain ⟨hx, hvalue⟩ := hitem.1 hmem
    exact ⟨x, value, hx, hvalue, hexceeds, fun i y w hy hw => hall ((y, w), i) (hitem.2 ⟨hy, hw⟩)⟩

/-- Where no value is negative the ratios are those of the values. -/
theorem ratioTest_spec (hthreshold : s.options.ratioThreshold = 0) (hvalues : ∀ v ∈ s.values, 0 ≤ v) :
    (∀ row, s.ratioTest d = some row → ∃ x value, d[row]? = some x ∧ s.values[row]? = some value ∧
      0 < x ∧ ∀ (i : ℕ) (y w : ℚ), d[i]? = some y → s.values[i]? = some w → 0 < y →
        s.ratioLE (row, value / x) (i, w / y)) ∧
    (s.ratioTest d = none → ∀ (i : ℕ) (y w : ℚ), d[i]? = some y → s.values[i]? = some w → y ≤ 0) := by
  have hpart : ∀ {i : ℕ} {value : ℚ}, s.values[i]? = some value → positivePart value = value :=
    fun hvalue => positivePart_rat (hvalues _ (List.mem_of_getElem? hvalue))
  have hleast := ratioTest_least (s := s) (d := d)
  rw [hthreshold] at hleast
  refine ⟨fun row hrow => ?_, hleast.2⟩
  obtain ⟨x, value, hx, hvalue, hpos, hall⟩ := hleast.1 row hrow
  refine ⟨x, value, hx, hvalue, hpos, fun i y w hy hw hpos' => ?_⟩
  have hle := hall i y w hy hw hpos'
  rwa [hpart hvalue, hpart hw] at hle

/-! ## One pivot -/

def NonNegative (s : Simplex ℚ) : Prop := ∀ value ∈ s.values, 0 ≤ value

def Allowed (start : Simplex ℚ) (withAuxiliary : Bool) (j : ℕ) : Prop :=
  withAuxiliary = true ∨ j ≠ start.auxiliary

theorem Sound.exists_direction (h : Sound start costs s) {j : ℕ} (hj : j < s.columns.length) :
    ∃ d, s.basis.forward? (s.column j) = some d ∧ d.length = s.basis.size ∧
      Basis.combination s.basis.size s.basicColumns d = s.column j := by
  obtain ⟨d, hd, hsize⟩ := h.shaped.exists_direction hj
  exact ⟨d, hd, hsize, h.represents.forward (h.shaped.length_column hj) hd⟩

theorem Sound.chooseMove (h : Sound start costs s) {c : Candidate ℚ} (rest : List (Candidate ℚ))
    (hj : c.column < s.columns.length) (hd : s.basis.forward? (s.column c.column) = some d)
    (hvalues : s.NonNegative) :
    (s.ratioTest d = none → s.chooseMove none (c :: rest) = some .unbounded) ∧
      ∀ row, s.ratioTest d = some row →
        s.chooseMove none (c :: rest) = some (.move ⟨c.position, row, d⟩) := by
  unfold Simplex.chooseMove
  simp only [getElem?_columns hj, hd, Option.bind_eq_bind, Option.bind_some]
  refine ⟨fun hnone => by rw [hnone]; rfl, fun row hrow => ?_⟩
  obtain ⟨x, value, hx, -, -, -⟩ := (ratioTest_spec h.options.ratioThreshold hvalues).1 row hrow
  simp only [hrow, hx, Option.bind_some, h.options.pivotTolerance, atMost_rat, magnitude_rat, abs_nonneg,
    decide_true, if_true]
  rfl

theorem Sound.directionOf_basic (h : Sound start costs s) (hentering : entering ∈ s.nonBasic)
    (hd : d.length = s.basis.size) {i j : ℕ} {y : ℚ} (hj : s.basic[i]? = some j) (hy : d[i]? = some y) :
    s.directionOf entering d j = -y := by
  obtain ⟨hi, rfl⟩ := List.getElem?_eq_some_iff.1 hj
  have hne : s.basic[i] ≠ entering := fun heq =>
    h.shaped.not_basic hentering (heq ▸ List.getElem_mem hi)
  rw [directionOf, if_neg hne, h.shaped.spread_getElem hd hi, List.getD_eq_getElem?_getD, hy,
    Option.getD_some, zero_sub]

theorem Sound.point_basic (h : Sound start costs s) {i j : ℕ} {w : ℚ} (hj : s.basic[i]? = some j)
    (hw : s.values[i]? = some w) : s.point j = w := by
  obtain ⟨hi, rfl⟩ := List.getElem?_eq_some_iff.1 hj
  rw [point, h.shaped.spread_getElem h.shaped.values hi, List.getD_eq_getElem?_getD, hw, Option.getD_some]

theorem Sound.point_nonneg (h : Sound start costs s) (hvalues : s.NonNegative) (j : ℕ) : 0 ≤ s.point j := by
  by_cases hj : j ∈ s.basic
  · obtain ⟨i, hi⟩ := List.mem_iff_getElem?.1 hj
    obtain ⟨_, _, w, -, -, hw⟩ := h.shaped.exists_row h.shaped.values
      (h.shaped.basic ▸ (List.getElem?_eq_some_iff.1 hi).1)
    rw [h.point_basic hi hw]
    exact hvalues w (List.mem_of_getElem? hw)
  · rw [point, spread_of_not_basic hj]

theorem Sound.nonNegative (h : Sound start costs s) (hpoint : ∀ j, 0 ≤ s.point j) : s.NonNegative := by
  intro w hmem
  obtain ⟨i, hi⟩ := List.mem_iff_getElem?.1 hmem
  obtain ⟨j, _, _, hj, -, -⟩ := h.shaped.exists_row h.shaped.values
    (h.shaped.values ▸ (List.getElem?_eq_some_iff.1 hi).1)
  exact h.point_basic hj hi ▸ hpoint j

/-- What falls in a direction is in the basis, and the entry for its row is above zero. -/
theorem Sound.exists_row_of_falls (h : Sound start costs s) (hentering : entering ∈ s.nonBasic)
    (hd : d.length = s.basis.size) {j : ℕ} (hfalls : s.directionOf entering d j < 0) :
    ∃ (i : ℕ) (y w : ℚ), s.basic[i]? = some j ∧ d[i]? = some y ∧ s.values[i]? = some w ∧ 0 < y ∧
      s.directionOf entering d j = -y ∧ s.point j = w := by
  by_cases hj : j ∈ s.basic
  · obtain ⟨i, hi⟩ := List.mem_iff_getElem?.1 hj
    obtain ⟨_, y, w, -, hy, hw⟩ := h.shaped.exists_row hd
      (h.shaped.basic ▸ (List.getElem?_eq_some_iff.1 hi).1)
    have hdirection := h.directionOf_basic hentering hd hi hy
    rw [hdirection, neg_lt_zero] at hfalls
    exact ⟨i, y, w, hi, hy, hw, hfalls, hdirection, h.point_basic hi hw⟩
  · -- the other columns stay or rise
    rw [directionOf, spread_of_not_basic hj, sub_zero] at hfalls
    split at hfalls
    · exact absurd hfalls (not_lt.2 zero_le_one)
    · exact absurd hfalls (lt_irrefl 0)

/-- A pivot on the row that the ratio test finds leads to a vertex of no smaller value. Of the
columns that bound the step equally the smallest one leaves. -/
theorem Sound.pivot_bounded (h : Sound start costs s) (hvalues : s.NonNegative) {position row entering : ℕ}
    (hentering : s.nonBasic[position]? = some entering) (hd : d.length = s.basis.size)
    (hcombination : Basis.combination s.basis.size s.basicColumns d = s.column entering)
    (hrow : s.ratioTest d = some row) (hrate : 0 < s.rate entering) :
    Ensures (Simplex.pivot position row d) s (fun _ s' => s'.iterations = s.iterations + 1 ∧
      ∃ (h' : Sound start costs s') (leaving : ℕ),
        Pivots h.vertex h'.vertex entering leaving (s.directionOf entering d) ∧
        ∀ j, s.directionOf entering d j < 0 →
          s.point j / -s.directionOf entering d j = s.point leaving / -s.directionOf entering d leaving →
          leaving ≤ j) never := by
  obtain ⟨x, value, hx, hvalue, hpos, hleast⟩ := (ratioTest_spec h.options.ratioThreshold hvalues).1 row hrow
  obtain ⟨leaving, _, _, hleaving, -, -⟩ := h.shaped.exists_row hd (hd ▸ (List.getElem?_eq_some_iff.1 hx).1)
  have hmem := List.mem_of_getElem? hentering
  have hleads := h.leads hmem hcombination
  have hpoint := h.point_exchanged hentering hleaving hvalue hx hd hpos.ne'
  have hfalls := h.directionOf_basic hmem hd hleaving hx
  have hvalue' := h.point_basic hleaving hvalue
  refine ensures_of_never (h.pivot hentering hleaving hvalue hx hd hcombination hpos.ne') ?_
  rintro - s' ⟨hsound, basis, rfl⟩
  refine ⟨rfl, hsound, leaving, ⟨hleads, h.point_nonneg hvalues,
    List.mem_toFinset.2 (List.mem_of_getElem? hleaving), ?_, ?_, hrate, ?_, ?_⟩, ?_⟩
  · rw [hfalls]
    exact neg_lt_zero.2 hpos
  · intro j hj
    obtain ⟨i, y, w, hi, hy, hw, hpos', hdirection, hvalue''⟩ := h.exists_row_of_falls hmem hd hj
    change s.point leaving / _ ≤ s.point j / _
    rw [hfalls, hdirection, hvalue', hvalue'', neg_neg, neg_neg]
    exact (hleast i y w hy hw hpos').elim le_of_lt fun hand => hand.1.le
  · ext j
    change j ∈ (s.basic.set row entering).toFinset ↔ j ∈ insert entering (s.basic.toFinset.erase leaving)
    rw [List.mem_toFinset, h.shaped.mem_set_basic hleaving, Finset.mem_insert, Finset.mem_erase,
      List.mem_toFinset]
  · change (s.exchanged position row d entering leaving (value / x)).point =
      Pursuit.along s.point _ (s.point leaving / _)
    rw [hpoint, hfalls, hvalue', neg_neg]
  · -- of the columns that bound the step alike, the ratio test took the smallest
    intro j hj heq
    obtain ⟨i, y, w, hi, hy, hw, hpos', hdirection, hvalue''⟩ := h.exists_row_of_falls hmem hd hj
    rw [hfalls, hdirection, hvalue', hvalue'', neg_neg, neg_neg] at heq
    rcases hleast i y w hy hw hpos' with hlt | ⟨-, hle⟩
    · exact absurd heq hlt.ne'
    · have hle' : s.basic.getD row 0 ≤ s.basic.getD i 0 := hle
      rwa [List.getD_eq_getElem?_getD, hleaving, List.getD_eq_getElem?_getD, hi] at hle'

theorem Sound.exists_candidates (h : Sound start costs s) (withAuxiliary bland : Bool) :
    ∃ candidates, s.candidates withAuxiliary bland s.prices = some candidates ∧
      (∀ c ∈ candidates, s.nonBasic[c.position]? = some c.column ∧
        Allowed start withAuxiliary c.column ∧ 0 < s.rate c.column) ∧
      (∀ j < start.columns.length, Allowed start withAuxiliary j → 0 < s.rate j →
        ∃ c ∈ candidates, c.column = j) ∧
      (bland = true → candidates.Pairwise fun a b => a.column ≤ b.column) := by
  obtain ⟨candidates, hcandidates, hmem, hsorted⟩ := candidates_spec h.shaped withAuxiliary bland s.prices
  have hcandidate : ∀ c, c ∈ candidates ↔ s.nonBasic[c.position]? = some c.column ∧
      c.reduced = s.rate c.column ∧ Allowed start withAuxiliary c.column ∧ 0 < s.rate c.column := by
    intro c
    rw [hmem, h.options.feasibilityTolerance, less_rat, decide_eq_true_eq, Allowed, h.retains.auxiliary,
      and_congr_right_iff]
    exact fun _ => and_congr_right fun hreduced => by rw [hreduced]; rfl
  refine ⟨candidates, hcandidates, fun c hc => ?_, fun j hj hallowed hrate => ?_, hsorted⟩
  · obtain ⟨hposition, -, hallowed, hrate⟩ := (hcandidate c).1 hc
    exact ⟨hposition, hallowed, hrate⟩
  · have hout : j ∉ s.basic := fun hbasic => hrate.ne' (h.rate_eq_zero hbasic)
    obtain ⟨position, hposition⟩ := List.mem_iff_getElem?.1
      (h.shaped.mem_nonBasic (h.retains.columns ▸ hj) hout)
    exact ⟨⟨position, j, s.rate j⟩, (hcandidate _).2 ⟨hposition, rfl, hallowed, hrate⟩, rfl⟩

/-- One pivot, or the reason why there is none: no rate is above zero, or nothing falls when some
column enters. -/
theorem Sound.improve (h : Sound start costs s) (hvalues : s.NonNegative) (withAuxiliary : Bool) :
    Ensures (improve withAuxiliary) s (fun answer s' =>
      (answer = some true ∧ s' = s ∧ ∀ j < start.columns.length, Allowed start withAuxiliary j →
        h.vertex.rate j ≤ 0) ∨
      (answer = some false ∧ s' = s ∧ ∃ entering direction, Leads h.vertex entering direction ∧
        Allowed start withAuxiliary entering ∧ 0 < h.vertex.rate entering ∧ ∀ j, 0 ≤ direction j) ∨
      (answer = none ∧ s'.iterations = s.iterations + 1 ∧
        ∃ (h' : Sound start costs s') (entering leaving : ℕ) (direction : ℕ → ℚ),
          Pivots h.vertex h'.vertex entering leaving direction ∧ Allowed start withAuxiliary entering ∧
          (s.usesBland = true →
            Bland (Allowed start withAuxiliary) h.vertex h'.vertex entering leaving direction))) never := by
  obtain ⟨hprices, -⟩ := h.exists_prices
  obtain ⟨candidates, hcandidates, hcandidate, hfound, hsorted⟩ :=
    h.exists_candidates withAuxiliary s.usesBland
  simp only [Simplex.improve, ensures_bind, ensures_get, h.options.iterationLimit, Option.any_none,
    Bool.false_eq_true, if_false, h.shaped.mapM_costs 0, ensures_pure, hprices, entry_some, hcandidates]
  cases candidates with
  | nil =>
    refine Or.inl ⟨rfl, rfl, fun j hj hallowed => not_lt.1 fun hrate => ?_⟩
    obtain ⟨c, hc, -⟩ := hfound j hj hallowed hrate
    exact List.not_mem_nil hc
  | cons c rest =>
    obtain ⟨hposition, hallowed, hrate⟩ := hcandidate c List.mem_cons_self
    have hmem := List.mem_of_getElem? hposition
    have hj := h.shaped.lt_of_nonBasic hmem
    obtain ⟨d, hd, hlength, hcombination⟩ := h.exists_direction hj
    obtain ⟨hunbounded, hmove⟩ := h.chooseMove rest hj hd hvalues
    rw [List.isEmpty_cons, if_neg Bool.false_ne_true]
    cases hrow : s.ratioTest d with
    | none =>
      rw [hunbounded hrow]
      refine Or.inr (Or.inl ⟨rfl, rfl, c.column, _, h.leads hmem hcombination, hallowed, hrate, fun j => ?_⟩)
      by_contra hfalls
      obtain ⟨i, y, w, -, hy, hw, hpos, -⟩ := h.exists_row_of_falls hmem hlength (not_le.1 hfalls)
      exact hpos.not_ge ((ratioTest_spec h.options.ratioThreshold hvalues).2 hrow i y w hy hw)
    | some row =>
      rw [hmove row hrow]
      simp only [entry_some, ensures_bind, ensures_pure]
      refine ensures_of_never (h.pivot_bounded hvalues hposition hlength hcombination hrow hrate) ?_
      rintro - s' ⟨hcount, h', leaving, hpivots, hties⟩
      refine Or.inr (Or.inr ⟨trivial, hcount, h', c.column, leaving, _, hpivots, hallowed, fun hbland => ?_⟩)
      refine ⟨hpivots, hallowed, fun j hj hallowed' hrate' => ?_, hties⟩
      -- under the smallest-column rule the first candidate is the smallest of all that may enter
      obtain ⟨other, hother, rfl⟩ := hfound j hj hallowed' hrate'
      rcases List.mem_cons.1 hother with rfl | hother
      · exact Nat.le_refl _
      · exact (List.pairwise_cons.1 (hsorted hbland)).1 other hother

end Satisfiability.Linear.Simplex
