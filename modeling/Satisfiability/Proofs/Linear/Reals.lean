import Mathlib
import Satisfiability.Proofs.Linear.NormalForm

/-!
# Real numbers

A formula of linear arithmetic that is true of some real numbers is true of some rational ones
(`exists_rational`). Take rational-linear maps from the reals to the rationals that keep one, and
that come close to every real number (`Approximates`). They commute with all expressions, as the
coefficients are rational, and so they keep equalities; inequalities are kept from some map on.
-/

namespace Satisfiability.Linear

open Filter Topology
open Satisfiability.FirstOrder (Term)
open Text (Numeral)

/-! ## Arithmetic of a field -/

section field

variable {K : Type} [Field K] [LinearOrder K]

/-- The number that a function makes of others. Functions that are not arithmetic make zero of them.
-/
def appliedIn : String → List K → K
  | "plus", xs => xs.sum
  | "minus", [x] => -x
  | "minus", x :: xs => x - xs.sum
  | "mult", xs => xs.prod
  | "multi", xs => xs.prod
  | _, _ => 0

/-- Whether a relation holds between two numbers. Relations that are not arithmetic hold of nothing.
-/
def relatedIn : String → List K → Prop
  | "GS", [x, y] => x ≥ y
  | "KS", [x, y] => x ≤ y
  | "K", [x, y] => x < y
  | "S", [x, y] => x = y
  | "LS", [x, y] => x ≠ y
  | _, _ => False

/-- The numbers of an ordered field, with an assignment of them to variables. Constants that are not
numerals are zero. -/
def arithmeticIn (assignment : String → K) : FirstOrder.Structure K where
  var := assignment
  const name := (((Numeral.read? name.toList).map Numeral.value).getD 0 : ℚ)
  app := appliedIn
  rel := relatedIn

end field

/-! ## Rational maps -/

/-- Rational-linear maps to the rationals that keep one and come as close to each real number as one
likes. -/
structure Approximates (φ : ℕ → ℝ →ₗ[ℚ] ℚ) : Prop where
  map_one : ∀ n, φ n 1 = 1
  tendsto : ∀ x, Tendsto (fun n => (φ n x : ℝ)) atTop (𝓝 x)

theorem exists_basis_one : ∃ (ι : Type) (b : Module.Basis ι ℚ ℝ) (i : ι), b i = 1 := by
  have hone : LinearIndepOn ℚ id ({1} : Set ℝ) := (linearIndepOn_singleton_iff ℚ).2 one_ne_zero
  exact ⟨_, .extend hone, ⟨1, Module.Basis.subset_extend hone (Set.mem_singleton _)⟩,
    Module.Basis.extend_apply_self hone _⟩

theorem exists_tendsto_rat (x : ℝ) : ∃ q : ℕ → ℚ, Tendsto (fun n => (q n : ℝ)) atTop (𝓝 x) := by
  have hnear : ∀ n : ℕ, ∃ q : ℚ, |x - q| < 1 / ((n : ℝ) + 1) := fun n =>
    exists_rat_near x Nat.one_div_pos_of_nat
  choose q hq using hnear
  refine ⟨q, tendsto_iff_dist_tendsto_zero.2 ?_⟩
  refine squeeze_zero (fun _ => dist_nonneg) (fun n => ?_) tendsto_one_div_add_atTop_nhds_zero_nat
  rw [dist_comm, Real.dist_eq]
  exact (hq n).le

theorem exists_approximates : ∃ φ, Approximates φ := by
  classical
  obtain ⟨ι, b, unit, hunit⟩ := exists_basis_one
  choose near hnear using exists_tendsto_rat
  -- the images of the elements of the basis are close to them, and that of one is one
  set image : ℕ → ι → ℚ := fun n i => if i = unit then 1 else near (b i) n with himage
  have htendsto : ∀ i, Tendsto (fun n => (image n i : ℝ)) atTop (𝓝 (b i)) := by
    intro i
    by_cases hi : i = unit
    · have hone : ∀ n, (image n i : ℝ) = b i := fun n => by
        rw [himage, hi, hunit]
        simp only [if_true, Rat.cast_one]
      simpa only [hone] using tendsto_const_nhds
    · simp only [himage, if_neg hi]
      exact hnear (b i)
  refine ⟨fun n => b.constr ℚ (image n), fun n => ?_, fun x => ?_⟩
  · rw [← hunit, b.constr_basis]
    exact if_pos rfl
  · have hsum : ∑ i ∈ (b.repr x).support, ((b.repr x i : ℚ) : ℝ) * b i = x := by
      conv_rhs => rw [← b.linearCombination_repr x]
      rw [Finsupp.linearCombination_apply, Finsupp.sum]
      exact Finset.sum_congr rfl fun i _ => (Rat.smul_def _ _).symm
    have himages : ∀ n, ((b.constr ℚ (image n) x : ℚ) : ℝ) =
        ∑ i ∈ (b.repr x).support, ((b.repr x i : ℚ) : ℝ) * image n i := by
      intro n
      rw [b.constr_apply, Finsupp.sum, Rat.cast_sum]
      exact Finset.sum_congr rfl fun i _ => by rw [smul_eq_mul, Rat.cast_mul]
    have hlimit := tendsto_finsetSum (b.repr x).support fun i _ =>
      (htendsto i).const_mul ((b.repr x i : ℚ) : ℝ)
    rw [hsum] at hlimit
    simpa only [himages] using hlimit

namespace Approximates

variable {φ : ℕ → ℝ →ₗ[ℚ] ℚ} {x y : ℝ}

theorem map_mul (_ : Approximates φ) (n : ℕ) (q : ℚ) (x : ℝ) : φ n (q * x) = q * φ n x := by
  rw [← Rat.smul_def, map_smul, smul_eq_mul]

theorem map_rat (h : Approximates φ) (n : ℕ) (q : ℚ) : φ n q = q := by
  have hproduct := h.map_mul n q 1
  rwa [mul_one, h.map_one, mul_one] at hproduct

theorem eq_of_map_eq (h : Approximates φ) {q : ℚ} (hx : ∀ n, φ n x = q) : x = q := by
  have hlimit := h.tendsto x
  simp only [hx] at hlimit
  exact tendsto_nhds_unique hlimit tendsto_const_nhds

theorem eventually_lt (h : Approximates φ) (hlt : x < y) : ∀ᶠ n in atTop, φ n x < φ n y := by
  filter_upwards [(h.tendsto x).eventually_lt (h.tendsto y) hlt] with n hn
  exact Rat.cast_lt.1 hn

theorem eventually_lt_iff (h : Approximates φ) (x y : ℝ) : ∀ᶠ n in atTop, (φ n x < φ n y ↔ x < y) := by
  rcases lt_trichotomy x y with hlt | rfl | hlt
  · filter_upwards [h.eventually_lt hlt] with n hn
    exact iff_of_true hn hlt
  · exact .of_forall fun n => iff_of_false (lt_irrefl _) (lt_irrefl _)
  · filter_upwards [h.eventually_lt hlt] with n hn
    exact iff_of_false hn.asymm hlt.asymm

end Approximates

/-! ## Expressions -/

/-- The number is what the expression is, where variables have real values: every map takes it to
the value of the expression where it takes the variables. -/
structure Expression.IsReal (φ : ℕ → ℝ →ₗ[ℚ] ℚ) (assignment : String → ℝ) (e : Expression ℚ) (x : ℝ) :
    Prop where
  reduced : Reduced e.coefficients
  value : ∀ n, e.value (fun name => φ n (assignment name)) = φ n x

namespace Expression

variable {φ : ℕ → ℝ →ₗ[ℚ] ℚ} {assignment : String → ℝ} {a b e : Expression ℚ} {x y : ℝ}
  {expressions : List (Expression ℚ)}

theorem isReal_ofVariable (name : String) : (ofVariable name).IsReal φ assignment (assignment name) :=
  ⟨reduced_ofVariable name, fun _ => value_ofVariable name⟩

theorem isReal_ofConstant (h : Approximates φ) (constant : ℚ) :
    (ofConstant constant).IsReal φ assignment constant :=
  ⟨reduced_empty, fun n => (value_ofConstant constant).trans (h.map_rat n constant).symm⟩

theorem isReal_of_multiply? (h : Approximates φ) (ha : a.IsReal φ assignment x)
    (hb : b.IsReal φ assignment y) (hproduct : a.multiply? b = some e) : e.IsReal φ assignment (x * y) := by
  have hstands : ∀ n, e.StandsFor (fun name => φ n (assignment name)) (φ n x * φ n y) := by
    intro n
    rw [← ha.value n, ← hb.value n]
    exact standsFor_of_multiply? hproduct
  refine ⟨(hstands 0).reduced, fun n => (hstands n).value.trans ?_⟩
  have hconstant : a.isConstant = true ∨ b.isConstant = true := by
    unfold Expression.multiply? at hproduct
    split at hproduct
    · exact Or.inl ‹_›
    · split at hproduct
      · exact Or.inr ‹_›
      · cases hproduct
  rcases hconstant with hconstant | hconstant
  · obtain rfl : x = a.constant := h.eq_of_map_eq fun n => by
      rw [← ha.value n, value_of_isConstant hconstant]
    rw [h.map_mul, h.map_rat]
  · obtain rfl : y = b.constant := h.eq_of_map_eq fun n => by
      rw [← hb.value n, value_of_isConstant hconstant]
    rw [mul_comm x, h.map_mul, h.map_rat, mul_comm]

theorem isReal_of_foldlM_multiply? (h : Approximates φ) {xs : List ℝ} (ha : a.IsReal φ assignment x)
    (hall : List.Forall₂ (IsReal φ assignment) expressions xs)
    (hproduct : expressions.foldlM multiply? a = some e) : e.IsReal φ assignment (x * xs.prod) := by
  induction hall generalizing a x with
  | nil =>
    obtain rfl := Option.some.inj hproduct
    rwa [List.prod_nil, mul_one]
  | cons hb _ ih =>
    rw [List.foldlM_cons] at hproduct
    obtain ⟨product, hfirst, hrest⟩ := Option.bind_eq_some_iff.1 hproduct
    rw [List.prod_cons, ← mul_assoc]
    exact ih (isReal_of_multiply? h ha hb hfirst) hrest

theorem map_value_eq {xs : List ℝ} (hall : List.Forall₂ (IsReal φ assignment) expressions xs) (n : ℕ) :
    expressions.map (fun a => a.value fun name => φ n (assignment name)) = xs.map (φ n) := by
  induction hall with
  | nil => rfl
  | cons ha _ ih => rw [List.map_cons, List.map_cons, ha.value n, ih]

theorem reduced_of_forall₂ {xs : List ℝ} (hall : List.Forall₂ (IsReal φ assignment) expressions xs) :
    ∀ a ∈ expressions, Reduced a.coefficients := by
  induction hall with
  | nil => exact List.forall_mem_nil _
  | cons ha _ ih => exact List.forall_mem_cons.2 ⟨ha.reduced, ih⟩

theorem isReal_of_evaluate? (h : Approximates φ) {function : String} {xs : List ℝ}
    (hall : List.Forall₂ (IsReal φ assignment) expressions xs)
    (hevaluate : evaluate? function expressions = some e) :
    e.IsReal φ assignment (appliedIn function xs) := by
  -- along each approximation the expression has the value of the term over the rationals
  have hstands : ∀ n, e.StandsFor (fun name => φ n (assignment name)) (applied function (xs.map (φ n))) := by
    intro n
    rw [← map_value_eq hall]
    exact standsFor_of_evaluate? (reduced_of_forall₂ hall) hevaluate
  have hsum : ∀ n (xs : List ℝ), (xs.map (φ n)).sum = φ n xs.sum := fun n xs => (map_list_sum (φ n) xs).symm
  unfold evaluate? at hevaluate
  split at hevaluate
  · rename_i hfunction
    subst hfunction
    exact ⟨(hstands 0).reduced, fun n => (hstands n).value.trans (hsum n xs)⟩
  · split at hevaluate
    · rename_i hfunction
      subst hfunction
      refine ⟨(hstands 0).reduced, fun n => (hstands n).value.trans ?_⟩
      match expressions, xs, hall with
      | [], [], _ => cases hevaluate
      | [_], [x], _ => exact (map_neg (φ n) x).symm
      | _ :: _ :: _, x :: y :: rest, _ =>
        change φ n x - ((y :: rest).map (φ n)).sum = φ n (x - (y :: rest).sum)
        rw [hsum, map_sub]
    · split at hevaluate
      · rename_i hfunction
        have hprod : (appliedIn function : List ℝ → ℝ) = List.prod := by
          rcases hfunction with rfl | rfl <;> rfl
        have hone : (ofConstant 1).IsReal φ assignment ((1 : ℚ) : ℝ) := isReal_ofConstant h 1
        have hproduct := isReal_of_foldlM_multiply? h hone hall hevaluate
        rwa [Rat.cast_one, one_mul, ← hprod] at hproduct
      · cases hevaluate

mutual

/-- A term that is read as an expression has the value of the expression over the reals. -/
theorem isReal_of_ofTerm {φ : ℕ → ℝ →ₗ[ℚ] ℚ} (h : Approximates φ) {assignment : String → ℝ} {t : Term}
    {e : Expression ℚ} (ht : ofTerm t = .ok e) :
    e.IsReal φ assignment ((arithmeticIn assignment).value t) := by
  match t with
  | .var name =>
    obtain rfl := Except.ok.inj ht
    exact isReal_ofVariable name
  | .const name =>
    unfold ofTerm at ht
    split at ht
    · rename_i numeral hread
      obtain rfl := Except.ok.inj ht
      have hvalue : (arithmeticIn assignment).value (.const name) = (numeral.value : ℝ) := by
        simp [FirstOrder.Structure.value, arithmeticIn, hread]
      rw [hvalue, ← numeralValue_rat]
      exact isReal_ofConstant h _
    · cases ht
  | .app function arguments =>
    unfold ofTerm at ht
    split at ht
    · cases ht
    · rename_i expressions harguments
      split at ht
      · rename_i hevaluate
        obtain rfl := Except.ok.inj ht
        exact isReal_of_evaluate? h (isReal_of_ofTerms h harguments) hevaluate
      · cases ht

/-- Terms that are read as expressions have the values of the expressions over the reals. -/
theorem isReal_of_ofTerms {φ : ℕ → ℝ →ₗ[ℚ] ℚ} (h : Approximates φ) {assignment : String → ℝ}
    {ts : List Term} {expressions : List (Expression ℚ)} (hts : ofTerms ts = .ok expressions) :
    List.Forall₂ (IsReal φ assignment) expressions ((arithmeticIn assignment).values ts) := by
  match ts with
  | [] =>
    obtain rfl := Except.ok.inj hts
    exact .nil
  | t :: ts =>
    unfold ofTerms at hts
    split at hts
    · cases hts
    · rename_i hfirst
      split at hts
      · cases hts
      · rename_i hrest
        obtain rfl := Except.ok.inj hts
        exact .cons (isReal_of_ofTerm h hfirst) (isReal_of_ofTerms h hrest)

end

theorem value_map (h : Approximates φ) {t : Term} (ht : ofTerm t = .ok e) (n : ℕ) :
    (arithmetic fun name => φ n (assignment name)).value t = φ n ((arithmeticIn assignment).value t) := by
  rw [← (isReal_of_ofTerm h ht).value n]
  have hstands : e.StandsFor (fun name => φ n (assignment name)) _ := standsFor_of_ofTerm ht
  exact hstands.value.symm

end Expression

/-! ## Formulas -/

namespace NormalForm

variable {φ : ℕ → ℝ →ₗ[ℚ] ℚ} {assignment : String → ℝ} {clauses : NormalForm ℚ}

theorem eventually_related_iff (h : Approximates φ) {name : String} {comparison : Comparison}
    (hname : Comparison.ofRelation? name = some comparison) (x y : ℝ) :
    ∀ᶠ n in atTop, (related name [φ n x, φ n y] ↔ relatedIn name [x, y]) := by
  filter_upwards [h.eventually_lt_iff x y, h.eventually_lt_iff y x] with n hless hgreater
  have heq : φ n x = φ n y ↔ x = y := by
    rw [le_antisymm_iff, ← not_lt, ← not_lt, hless, hgreater, not_lt, not_lt, ← le_antisymm_iff]
  unfold Comparison.ofRelation? at hname
  split_ifs at hname <;> subst_vars
  · exact not_lt.symm.trans ((not_congr hless).trans not_lt)
  · exact not_lt.symm.trans ((not_congr hgreater).trans not_lt)
  · exact hless
  · exact heq
  · exact not_congr heq

/-- Formulas are as true where the maps take the variables as they are over the reals, from some map
on. -/
theorem eventually_models_iff (h : Approximates φ) {positive : Bool} {formula : FirstOrder.Formula}
    (hformula : ofFormula positive formula = .ok clauses) :
    ∀ᶠ n in atTop, ((arithmetic fun name => φ n (assignment name)).Models formula ↔
      (arithmeticIn assignment).Models formula) := by
  -- each comparison settles from some approximation on, and there are finitely many of them
  induction formula generalizing positive clauses with
  | equality left right =>
    obtain ⟨⟨a, hleft⟩, b, hright⟩ := exists_ofAtom_iff.1 ⟨_, hformula⟩
    have hname : Comparison.ofRelation? "S" = some .equal := rfl
    have hrelated := eventually_related_iff h hname
      ((arithmeticIn assignment).value left) ((arithmeticIn assignment).value right)
    filter_upwards [hrelated] with n hn
    rw [← Expression.value_map h hleft, ← Expression.value_map h hright] at hn
    exact hn
  | relation name arguments =>
    unfold ofFormula at hformula
    split at hformula
    · rename_i comparison left right hname
      obtain ⟨⟨a, hleft⟩, b, hright⟩ := exists_ofAtom_iff.1 ⟨_, hformula⟩
      have hrelated := eventually_related_iff h hname
        ((arithmeticIn assignment).value left) ((arithmeticIn assignment).value right)
      filter_upwards [hrelated] with n hn
      rw [← Expression.value_map h hleft, ← Expression.value_map h hright] at hn
      exact hn
    · cases hformula
  | not inner ih =>
    filter_upwards [ih hformula] with n hn
    exact not_congr hn
  | and first second ihfirst ihsecond =>
    obtain ⟨xs, ys, hfirst, hsecond, -⟩ := combine_eq_ok hformula
    filter_upwards [ihfirst hfirst, ihsecond hsecond] with n hn hn'
    exact and_congr hn hn'
  | or first second ihfirst ihsecond =>
    obtain ⟨xs, ys, hfirst, hsecond, -⟩ := combine_eq_ok hformula
    filter_upwards [ihfirst hfirst, ihsecond hsecond] with n hn hn'
    exact or_congr hn hn'
  | implies first second ihfirst ihsecond =>
    obtain ⟨xs, ys, hfirst, hsecond, -⟩ := combine_eq_ok hformula
    filter_upwards [ihfirst hfirst, ihsecond hsecond] with n hn hn'
    exact imp_congr hn hn'
  | forAll name body _ => cases hformula
  | exist name body _ => cases hformula

/-- A formula that is true of some real numbers is true of some rational ones. -/
theorem exists_rational {formula : FirstOrder.Formula} (hformula : ofFormula true formula = .ok clauses)
    (hmodels : (arithmeticIn assignment).Models formula) :
    ∃ values : String → ℚ, (arithmetic values).Models formula := by
  obtain ⟨φ, h⟩ := exists_approximates
  have heventually : ∀ᶠ n in atTop, ((arithmetic fun name => φ n (assignment name)).Models formula ↔
      (arithmeticIn assignment).Models formula) := eventually_models_iff h hformula
  obtain ⟨n, hn⟩ := heventually.exists
  exact ⟨_, hn.2 hmodels⟩

end NormalForm

end Satisfiability.Linear
