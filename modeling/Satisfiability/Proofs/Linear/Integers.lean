import Mathlib.Algebra.Ring.Subring.Basic
import Satisfiability.Proofs.FirstOrder.Reading
import Satisfiability.Proofs.Linear.Rows

/-!
# Formulas in whole numbers

Constants of formulas have no sign and no point in their names, so that numerals among them are
whole numbers (`Numeral.exponent_nonneg`). Expressions, rows and programs are made from them by sums
and products, and all their coefficients are whole numbers (`NormalForm.integral_ofFormula`,
`integral_of_programOf`).
-/

namespace Satisfiability

open Text (Numeral ReadingFault)

namespace Text.Numeral

theorem takeSign_spec {text : List Char} (h : '-' ∉ text) :
    (takeSign text).1 = false ∧ (takeSign text).2 ⊆ text := by
  unfold takeSign
  split
  · exact absurd List.mem_cons_self h
  · exact ⟨rfl, List.subset_cons_self _ _⟩
  · exact ⟨rfl, List.Subset.refl _⟩

theorem exponent?_nonneg {text : List Char} {exponent : ℤ} (h : exponent? text = some exponent)
    (hsign : '-' ∉ text) : 0 ≤ exponent := by
  unfold exponent? at h
  split at h
  · exact (Option.some.inj h).le
  · rename_i rest
    split at h
    · have hpositive := (takeSign_spec fun hmem => hsign (List.mem_cons_of_mem _ hmem)).1
      generalize takeSign rest = signed at h hpositive
      obtain ⟨value, hvalue, rfl⟩ := Option.map_eq_some_iff.1 h
      obtain ⟨n, -, hn⟩ := Option.bind_eq_some_iff.1 hvalue
      obtain rfl : (n : ℤ) = value := Option.some.inj hn
      rw [hpositive, if_neg Bool.false_ne_true]
      exact Int.natCast_nonneg n
    · cases h

/-- A numeral without a minus sign and without a point is a whole number. -/
theorem exponent_nonneg {text : List Char} {numeral : Numeral} (h : read? text = some numeral)
    (hsign : '-' ∉ text) (hpoint : '.' ∉ text) : 0 ≤ numeral.exponent := by
  obtain ⟨-, hsub⟩ := takeSign_spec hsign
  unfold read? at h
  dsimp only at h
  generalize (takeSign text).2 = unsigned at h hsub
  have hrest : unsigned.dropWhile Char.isDigit ⊆ text := fun _ hmem =>
    hsub ((List.dropWhile_sublist _).subset hmem)
  generalize unsigned.dropWhile Char.isDigit = rest at h hrest
  split at h
  · exact absurd (hrest List.mem_cons_self) hpoint
  · split at h
    · cases h
    · obtain ⟨exponent, hexponent, rfl⟩ := Option.map_eq_some_iff.1 h
      have hnonneg := exponent?_nonneg hexponent fun hmem => hsign (hrest hmem)
      simpa using hnonneg

end Text.Numeral

namespace Linear

open Satisfiability.FirstOrder (Term)
open Scalar Step

def integers : Subring ℚ := (Int.castRingHom ℚ).range

theorem getD_mem_integers {xs : List ℚ} (h : ∀ x ∈ xs, x ∈ integers) (i : ℕ) : xs.getD i 0 ∈ integers := by
  rw [List.getD_eq_getElem?_getD]
  cases hx : xs[i]? with
  | none => exact zero_mem _
  | some x => exact h x (List.mem_of_getElem? hx)

/-! ## Expressions -/

def Integral (coefficients : NameMap ℚ) : Prop := ∀ term ∈ coefficients.toList, term.2 ∈ integers

theorem Integral.insert {coefficients : NameMap ℚ} (h : Integral coefficients) (name : String) {x : ℚ}
    (hx : x ∈ integers) : Integral (coefficients.insert name x) := by
  intro term hterm
  rcases KeyMap.mem_place hterm with rfl | hterm
  · exact hx
  · exact h term hterm

theorem Integral.find? {coefficients : NameMap ℚ} (h : Integral coefficients) (name : String) :
    (coefficients.find? name).getD 0 ∈ integers := by
  cases hfind : coefficients.find? name with
  | none => exact zero_mem _
  | some x => exact h (name, x) (KeyMap.mem_of_get? hfind)

namespace Expression

variable {a b e : Expression ℚ} {factor : ℚ} {expressions : List (Expression ℚ)}

structure Integral (a : Expression ℚ) : Prop where
  coefficients : Linear.Integral a.coefficients
  constant : a.constant ∈ integers

theorem integral_ofConstant {constant : ℚ} (h : constant ∈ integers) : (ofConstant constant).Integral :=
  ⟨List.forall_mem_nil _, h⟩

theorem integral_ofVariable (name : String) : (ofVariable (α := ℚ) name).Integral :=
  ⟨List.forall_mem_singleton.2 (one_mem _), zero_mem _⟩

theorem Integral.addScaled (ha : a.Integral) (hb : b.Integral) (hfactor : factor ∈ integers) :
    (a.addScaled b factor).Integral := by
  have hfold : ∀ (terms : List (String × ℚ)) (coefficients : NameMap ℚ),
      (∀ term ∈ terms, term.2 ∈ integers) → Linear.Integral coefficients →
      Linear.Integral (terms.foldl
        (fun total term => addCoefficient total term.1 (factor * term.2)) coefficients) := by
    intro terms
    induction terms with
    | nil => exact fun coefficients _ h => h
    | cons term rest ih =>
      intro coefficients hterms h
      obtain ⟨hterm, hrest⟩ := List.forall_mem_cons.1 hterms
      exact ih _ hrest (h.insert _ (add_mem (h.find? _) (mul_mem hfactor hterm)))
  refine ⟨fun term hterm => ?_, add_mem ha.constant (mul_mem hfactor hb.constant)⟩
  exact hfold _ _ hb.coefficients ha.coefficients term (List.mem_filter.1 hterm).1

theorem Integral.scale (ha : a.Integral) (hfactor : factor ∈ integers) : (a.scale factor).Integral :=
  (integral_ofConstant (zero_mem _)).addScaled ha hfactor

theorem Integral.foldl_addScaled (ha : a.Integral) (hfactor : factor ∈ integers)
    (hall : ∀ b ∈ expressions, b.Integral) :
    (expressions.foldl (fun total b => total.addScaled b factor) a).Integral := by
  induction expressions generalizing a with
  | nil => exact ha
  | cons b rest ih =>
    obtain ⟨hb, hrest⟩ := List.forall_mem_cons.1 hall
    exact ih (ha.addScaled hb hfactor) hrest

theorem Integral.multiply? (ha : a.Integral) (hb : b.Integral) (h : a.multiply? b = some e) : e.Integral := by
  unfold Expression.multiply? at h
  split at h
  · obtain rfl := Option.some.inj h
    exact hb.scale ha.constant
  · split at h
    · obtain rfl := Option.some.inj h
      exact ha.scale hb.constant
    · cases h

theorem Integral.foldlM_multiply? (ha : a.Integral) (hall : ∀ b ∈ expressions, b.Integral)
    (h : expressions.foldlM Expression.multiply? a = some e) : e.Integral := by
  induction expressions generalizing a with
  | nil =>
    obtain rfl := Option.some.inj h
    exact ha
  | cons b rest ih =>
    obtain ⟨hb, hrest⟩ := List.forall_mem_cons.1 hall
    rw [List.foldlM_cons] at h
    obtain ⟨product, hproduct, h⟩ := Option.bind_eq_some_iff.1 h
    exact ih (ha.multiply? hb hproduct) hrest h

theorem integral_of_evaluate? {function : String} (hall : ∀ a ∈ expressions, a.Integral)
    (h : evaluate? function expressions = some e) : e.Integral := by
  have hminus : (-one : ℚ) ∈ integers := neg_mem (one_mem _)
  unfold evaluate? at h
  split at h
  · obtain rfl := Option.some.inj h
    exact (integral_ofConstant (zero_mem _)).foldl_addScaled (one_mem _) hall
  · split at h
    · match expressions with
      | [] => cases h
      | [a] =>
        obtain rfl := Option.some.inj h
        exact (hall a List.mem_cons_self).scale hminus
      | a :: b :: others =>
        obtain rfl := Option.some.inj h
        obtain ⟨ha, hothers⟩ := List.forall_mem_cons.1 hall
        exact ha.foldl_addScaled hminus hothers
    · split at h
      · exact (integral_ofConstant (one_mem _)).foldlM_multiply? hall h
      · cases h

theorem integral_of_constant {name : String} (hname : FirstOrder.isConstant name = true) {numeral : Numeral}
    (h : Numeral.read? name.toList = some numeral) : (numeralValue numeral : ℚ) ∈ integers := by
  have hsymbols : ∀ symbol ∈ name.toList, symbol ≠ '-' ∧ symbol ≠ '.' := by
    rw [FirstOrder.isConstant, Bool.or_eq_true, beq_iff_eq, FirstOrder.isNameWith_iff] at hname
    rcases hname with rfl | ⟨s, more, rfl, -, hall⟩
    · exact List.forall_mem_singleton.2 ⟨by decide, by decide⟩
    · rw [String.toList_ofList]
      intro symbol hmem
      refine ⟨?_, ?_⟩ <;> rintro rfl <;> exact absurd (hall _ hmem) (by decide)
  obtain ⟨n, hn⟩ := Int.eq_ofNat_of_zero_le (Numeral.exponent_nonneg h
    (fun hmem => (hsymbols _ hmem).1 rfl) fun hmem => (hsymbols _ hmem).2 rfl)
  have hpower : (10 : ℚ) ∈ integers := natCast_mem integers 10
  rw [numeralValue_rat, Numeral.value, hn, zpow_natCast]
  refine mul_mem (mul_mem ?_ (natCast_mem _ _)) (pow_mem hpower n)
  split
  · exact neg_mem (one_mem _)
  · exact one_mem _

mutual

theorem integral_of_ofTerm {t : Term} {e : Expression ℚ} (hnamed : t.WellNamed) (h : ofTerm t = .ok e) :
    e.Integral := by
  match t with
  | .var name =>
    obtain rfl := Except.ok.inj h
    exact integral_ofVariable name
  | .const name =>
    unfold ofTerm at h
    split at h
    · rename_i numeral hread
      obtain rfl := Except.ok.inj h
      exact integral_ofConstant (integral_of_constant hnamed hread)
    · cases h
  | .app function arguments =>
    unfold ofTerm at h
    split at h
    · cases h
    · rename_i expressions harguments
      split at h
      · rename_i hevaluate
        obtain rfl := Except.ok.inj h
        exact integral_of_evaluate? (integral_of_ofTerms hnamed.2.2 harguments) hevaluate
      · cases h

theorem integral_of_ofTerms {ts : List Term} {expressions : List (Expression ℚ)}
    (hnamed : Term.AllWellNamed ts) (h : ofTerms ts = .ok expressions) :
    ∀ a ∈ expressions, a.Integral := by
  match ts with
  | [] =>
    obtain rfl := Except.ok.inj h
    exact List.forall_mem_nil _
  | t :: ts =>
    unfold ofTerms at h
    split at h
    · cases h
    · rename_i hfirst
      split at h
      · cases h
      · rename_i hrest
        obtain rfl := Except.ok.inj h
        exact List.forall_mem_cons.2 ⟨integral_of_ofTerm hnamed.1 hfirst, integral_of_ofTerms hnamed.2 hrest⟩

end

end Expression

/-! ## Rows -/

structure Row.Integral (row : Row ℚ) : Prop where
  coefficients : Linear.Integral row.coefficients
  bound : row.bound ∈ integers

namespace NormalForm

variable {clauses other : NormalForm ℚ} {a b : Expression ℚ}

def Integral (clauses : NormalForm ℚ) : Prop := ∀ rows ∈ clauses, ∀ row ∈ rows, row.Integral

theorem Integral.append (h : clauses.Integral) (h' : other.Integral) : Integral (clauses ++ other) :=
  List.forall_mem_append.2 ⟨h, h'⟩

theorem Integral.both (h : clauses.Integral) (h' : other.Integral) : (both clauses other).Integral := by
  intro rows hrows
  simp only [NormalForm.both, List.mem_flatMap, List.mem_map] at hrows
  obtain ⟨xs, hxs, ys, hys, rfl⟩ := hrows
  exact List.forall_mem_append.2 ⟨h xs hxs, h' ys hys⟩

theorem integral_nonPositive (h : a.Integral) (strict : Bool) : Integral [[.nonPositive a strict]] :=
  List.forall_mem_singleton.2 (List.forall_mem_singleton.2 ⟨h.coefficients, neg_mem h.constant⟩)

theorem integral_ofComparison (comparison : Comparison) (ha : a.Integral) (hb : b.Integral) :
    (ofComparison comparison a b).Integral := by
  have hminus : (-one : ℚ) ∈ integers := neg_mem (one_mem _)
  have hleft := integral_nonPositive (ha.addScaled hb hminus)
  have hright := integral_nonPositive ((ha.addScaled hb hminus).scale hminus)
  cases comparison with
  | atLeast => exact hright false
  | atMost => exact hleft false
  | less => exact hleft true
  | equal => exact (hleft false).both (hright false)
  | notEqual => exact (hleft true).append (hright true)

theorem integral_ofNegation (comparison : Comparison) (ha : a.Integral) (hb : b.Integral) :
    (ofNegation comparison a b).Integral := by
  cases comparison with
  | atLeast => exact integral_ofComparison .less ha hb
  | atMost => exact integral_ofComparison .less hb ha
  | less => exact integral_ofComparison .atLeast ha hb
  | equal => exact integral_ofComparison .notEqual ha hb
  | notEqual => exact integral_ofComparison .equal ha hb

theorem integral_ofAtom {comparison : Comparison} {left right : Term} {positive : Bool}
    (hleft : left.WellNamed) (hright : right.WellNamed)
    (h : ofAtom comparison left right positive = .ok clauses) : clauses.Integral := by
  unfold ofAtom at h
  split at h
  · cases h
  · rename_i ha
    split at h
    · cases h
    · rename_i hb
      obtain rfl := Except.ok.inj h
      have ha' := Expression.integral_of_ofTerm hleft ha
      have hb' := Expression.integral_of_ofTerm hright hb
      cases positive with
      | true => exact integral_ofComparison comparison ha' hb'
      | false => exact integral_ofNegation comparison ha' hb'

theorem Integral.combined (h : clauses.Integral) (h' : other.Integral) (positive : Bool) :
    ((if positive then NormalForm.both else (· ++ ·)) clauses other).Integral ∧
      ((if positive then (· ++ ·) else NormalForm.both) clauses other).Integral := by
  cases positive with
  | true => exact ⟨h.both h', h.append h'⟩
  | false => exact ⟨h.append h', h.both h'⟩

/-- The normal form of a well-named formula is in whole numbers. -/
theorem integral_ofFormula {positive : Bool} {formula : FirstOrder.Formula} (hnamed : formula.WellNamed)
    (h : ofFormula positive formula = .ok clauses) : clauses.Integral := by
  induction formula generalizing positive clauses with
  | equality left right => exact integral_ofAtom hnamed.1 hnamed.2 h
  | relation name arguments =>
    unfold ofFormula at h
    split at h
    · exact integral_ofAtom hnamed.2.1 hnamed.2.2.1 h
    · cases h
  | not inner ih => exact ih hnamed h
  | and first second ihfirst ihsecond =>
    obtain ⟨xs, ys, hfirst, hsecond, rfl⟩ := combine_eq_ok h
    exact ((ihfirst hnamed.1 hfirst).combined (ihsecond hnamed.2 hsecond) positive).1
  | or first second ihfirst ihsecond | implies first second ihfirst ihsecond =>
    obtain ⟨xs, ys, hfirst, hsecond, rfl⟩ := combine_eq_ok h
    exact ((ihfirst hnamed.1 hfirst).combined (ihsecond hnamed.2 hsecond) positive).2
  | forAll name body _ => cases h
  | exist name body _ => cases h

end NormalForm

/-! ## Programs -/

namespace Program

variable {program : Program ℚ} {terms : List (ℕ × ℚ)}

structure Integral (program : Program ℚ) : Prop where
  objective : ∀ x ∈ program.objective, x ∈ integers
  coefficients : ∀ constraint ∈ program.constraints, ∀ term ∈ constraint.coefficients, term.2 ∈ integers
  bounds : ∀ constraint ∈ program.constraints, constraint.bound ∈ integers

theorem integral_ofColumns (columns : ℕ) : (ofColumns (α := ℚ) columns).Integral where
  objective := fun x hx => by
    rw [List.eq_of_mem_replicate hx]
    exact zero_mem _
  coefficients := List.forall_mem_nil _
  bounds := List.forall_mem_nil _

theorem alter_mem_integers {f : ℚ → ℚ → ℚ}
    (hf : ∀ {x y}, x ∈ integers → y ∈ integers → f x y ∈ integers) {entries : List ℚ}
    (hentries : ∀ x ∈ entries, x ∈ integers) (hterms : ∀ term ∈ terms, term.2 ∈ integers) :
    ∀ x ∈ (alter f entries terms).2, x ∈ integers := by
  induction terms generalizing entries with
  | nil => exact hentries
  | cons term rest ih =>
    obtain ⟨hterm, hrest⟩ := List.forall_mem_cons.1 hterms
    unfold alter
    split
    · exact hentries
    · rename_i old hold
      refine ih (fun x hx => ?_) hrest
      rcases List.mem_or_eq_of_mem_set hx with hx | rfl
      · exact hentries x hx
      · exact hf (hentries old (List.mem_of_getElem? hold)) hterm

theorem Integral.setObjective (h : program.Integral) (hterms : ∀ term ∈ terms, term.2 ∈ integers) :
    Ensures (Program.setObjective terms) program (fun _ p => p.Integral) anyFault := by
  simp only [Program.setObjective, ensures_bind, ensures_get, ensures_set]
  split
  · trivial
  · exact ⟨alter_mem_integers (fun _ hy => hy) h.objective hterms, h.coefficients, h.bounds⟩

theorem Integral.addConstraint (h : program.Integral) (hterms : ∀ term ∈ terms, term.2 ∈ integers)
    {bound : ℚ} (hbound : bound ∈ integers) :
    Ensures (Program.addConstraint terms bound) program (fun _ p => p.Integral) anyFault := by
  simp only [Program.addConstraint, ensures_bind, ensures_get]
  split
  · trivial
  · have hsums : ∀ x ∈ (alter (· + ·) (List.replicate program.columns zero) terms).2, x ∈ integers :=
      alter_mem_integers (fun hx hy => add_mem hx hy) (integral_ofColumns program.columns).objective hterms
    refine ⟨h.objective, List.forall_mem_append.2 ⟨h.coefficients, List.forall_mem_singleton.2 ?_⟩,
      List.forall_mem_append.2 ⟨h.bounds, List.forall_mem_singleton.2 hbound⟩⟩
    intro term hterm
    obtain ⟨entry, hentry, rfl⟩ := List.mem_map.1 (List.mem_filter.1 hterm).1
    exact hsums _ (List.fst_mem_of_mem_zipIdx hentry)

end Program

variable {names : List String} {row : Row ℚ} {rows : List (Row ℚ)} {program : Program ℚ}

theorem Row.Integral.rowTerms (h : row.Integral) :
    ∀ term ∈ Linear.rowTerms names row, term.2 ∈ integers := by
  refine List.forall_mem_append.2 ⟨fun term hterm => ?_, ?_⟩
  · obtain ⟨⟨name, i⟩, -, hterm⟩ := List.mem_flatMap.1 hterm
    have hcoefficient := h.coefficients.find? name
    dsimp only at hterm
    split at hterm
    · exact absurd hterm List.not_mem_nil
    · rename_i coefficient hfind
      rw [hfind, Option.getD_some] at hcoefficient
      rcases List.mem_pair.1 hterm with rfl | rfl
      · exact hcoefficient
      · exact neg_mem hcoefficient
  · split
    · exact List.forall_mem_singleton.2 (one_mem _)
    · exact List.forall_mem_nil _

/-- The program of rows in whole numbers is in whole numbers. -/
theorem integral_of_programOf (hrows : ∀ row ∈ rows, row.Integral) (h : programOf names rows = .ok program) :
    program.Integral := by
  -- by induction on the rows, each of which adds one constraint
  have hadded : ∀ (others : List (Row ℚ)) (p : Program ℚ), (∀ row ∈ others, row.Integral) → p.Integral →
      Ensures (others.forM fun row => Program.addConstraint (rowTerms names row) row.bound) p
        (fun _ q => q.Integral) anyFault := by
    intro others
    induction others with
    | nil => exact fun p _ hp => hp
    | cons row rest ih =>
      intro p hothers hp
      obtain ⟨hrow, hrest⟩ := List.forall_mem_cons.1 hothers
      rw [ensures_forM_cons]
      exact ensures_mono (hp.addConstraint hrow.rowTerms hrow.bound) (fun _ q hq => ih q hrest hq) fun _ => id
  have hone : ∀ column : ℕ, ∀ term ∈ [(column, (one : ℚ))], term.2 ∈ integers := fun column =>
    List.forall_mem_singleton.2 (one_mem _)
  have hbuilt : ∀ columns, Ensures (buildProgram names rows) (Program.ofColumns columns)
      (fun _ p => p.Integral) anyFault := by
    intro columns
    rw [buildProgram, ensures_bind]
    refine ensures_mono (hadded rows _ hrows (Program.integral_ofColumns columns)) ?_ fun _ => id
    rintro ⟨⟩ p hp
    split
    · rw [ensures_bind]
      refine ensures_mono (hp.addConstraint (hone _) (one_mem _)) ?_ fun _ => id
      exact fun _ q hq => hq.setObjective (hone _)
    · exact hp
  dsimp only [programOf] at h
  split at h
  · rename_i hrun
    obtain rfl := Except.ok.inj h
    exact ensures_ok (hbuilt _) hrun
  · cases h

end Linear

end Satisfiability
