import Satisfiability.Propositional.Tseitin

/-!
# What the clauses of a formula say

Folding the truth values away does not change the value of a formula
(`Formula.value_foldConstants`). The clauses of an encoding say of each new variable that it has the
value of its subformula, so a valuation that makes them true makes the formula true as well
(`Formula.value_of_encode`). For this it does not matter whether the new variables are new: it is
only the other direction, that every model of the formula extends to them, that needs it.
-/

namespace Satisfiability.Propositional

variable {valuation : String → Bool} {clause : NamedClause} {clauses clauses' : List NamedClause}

/-! ## Clauses -/

@[simp]
theorem NamedLiteral.holds_neg (literal : NamedLiteral) :
    (-literal).holds valuation = !literal.holds valuation := by
  change (valuation literal.name == !literal.positive) = !(valuation literal.name == literal.positive)
  cases valuation literal.name <;> cases literal.positive <;> rfl

def NamedClause.Holds (valuation : String → Bool) (clause : NamedClause) : Prop :=
  ∃ literal ∈ clause, literal.holds valuation = true

def AllHold (valuation : String → Bool) (clauses : List NamedClause) : Prop :=
  ∀ clause ∈ clauses, NamedClause.Holds valuation clause

@[simp]
theorem NamedClause.not_holds_nil : ¬ NamedClause.Holds valuation [] := by
  rintro ⟨_, hmem, _⟩
  exact List.not_mem_nil hmem

@[simp]
theorem NamedClause.holds_cons {literal : NamedLiteral} :
    NamedClause.Holds valuation (literal :: clause) ↔
      literal.holds valuation = true ∨ clause.Holds valuation := by
  simp only [Holds, List.mem_cons, exists_eq_or_imp]

@[simp]
theorem allHold_nil : AllHold valuation [] := List.forall_mem_nil _

@[simp]
theorem allHold_cons :
    AllHold valuation (clause :: clauses) ↔ clause.Holds valuation ∧ AllHold valuation clauses :=
  List.forall_mem_cons

theorem allHold_append :
    AllHold valuation (clauses ++ clauses') ↔ AllHold valuation clauses ∧ AllHold valuation clauses'
    := by
  simp only [AllHold, List.mem_append, or_imp, forall_and]

theorem NamedClause.holds_of_isTautology (h : clause.isTautology = true) :
    clause.Holds valuation := by
  obtain ⟨literal, hmem, hcontains⟩ := List.any_eq_true.1 h
  have hneg : -literal ∈ clause := List.contains_iff_mem.1 hcontains
  cases hholds : literal.holds valuation with
  | true => exact ⟨literal, hmem, hholds⟩
  | false => exact ⟨-literal, hneg, by rw [NamedLiteral.holds_neg, hholds]; rfl⟩

namespace Cnf

/-- The clauses of a normal form. That nothing makes true is the empty clause. -/
def named : Cnf → List NamedClause
  | .always => []
  | .never => [[]]
  | .clauses kept => kept

theorem holds_iff {cnf : Cnf} : cnf.holds valuation = true ↔ AllHold valuation cnf.named := by
  cases cnf with
  | always => simp [holds, named, AllHold]
  | never => simp [holds, named, AllHold, NamedClause.Holds]
  | clauses kept => simp [holds, named, AllHold, NamedClause.Holds]

theorem holds_ofClauses : (ofClauses clauses).holds valuation = true ↔ AllHold valuation clauses := by
  -- what is left out holds anyway, and the order does not matter
  have hkept : AllHold valuation ((clauses.filter (!·.isTautology)).map ascending) ↔
      AllHold valuation clauses := by
    constructor
    · intro h clause hmem
      by_cases htautology : clause.isTautology = true
      · exact NamedClause.holds_of_isTautology htautology
      · obtain ⟨literal, hliteral, hholds⟩ :=
          h (ascending clause) (List.mem_map_of_mem (List.mem_filter.2 ⟨hmem, by simp [htautology]⟩))
        exact ⟨literal, mem_ascending.1 hliteral, hholds⟩
    · rintro h _ hmem
      obtain ⟨clause, hkept, rfl⟩ := List.mem_map.1 hmem
      obtain ⟨literal, hliteral, hholds⟩ := h clause (List.mem_filter.1 hkept).1
      exact ⟨literal, mem_ascending.2 hliteral, hholds⟩
  unfold ofClauses
  split
  · rename_i hempty
    have hmem : [] ∈ clauses := List.contains_iff_mem.1 hempty
    refine ⟨fun h => absurd h (by simp [holds]), fun h => ?_⟩
    obtain ⟨_, hnil, _⟩ := h [] hmem
    exact absurd hnil List.not_mem_nil
  · rw [← hkept]
    split
    · rename_i hnil
      simp [hnil, holds, AllHold]
    · rw [holds_iff]
      rfl

end Cnf

/-! ## Values -/

namespace Formula

def value (valuation : String → Bool) : Formula → Bool
  | truth value => value
  | var name => valuation name
  | not inner => !inner.value valuation
  | binary connective first second =>
    connective.apply (first.value valuation) (second.value valuation)

theorem value_congr {other : String → Bool} {formula : Formula}
    (h : ∀ name ∈ formula.occurrences, valuation name = other name) :
    formula.value valuation = formula.value other := by
  induction formula with
  | truth => rfl
  | var name => exact h name (List.mem_singleton.2 rfl)
  | not inner ih => rw [value, value, ih h]
  | binary connective first second ihFirst ihSecond =>
    rw [value, value, ihFirst fun name hmem => h name (List.mem_append_left _ hmem),
      ihSecond fun name hmem => h name (List.mem_append_right _ hmem)]

theorem evaluate_of_agrees {model : String → Option Bool} {formula : Formula}
    (h : ∀ name ∈ formula.occurrences, model name = some (valuation name)) :
    formula.evaluate model = some (formula.value valuation) := by
  induction formula with
  | truth => rfl
  | var name => exact h name (List.mem_singleton.2 rfl)
  | not inner ih => rw [evaluate, ih h, value, Option.map_some]
  | binary connective first second ihFirst ihSecond =>
    rw [evaluate, ihFirst fun name hmem => h name (List.mem_append_left _ hmem),
      ihSecond fun name hmem => h name (List.mem_append_right _ hmem), value]

theorem evaluate_eq_value (formula : Formula) :
    formula.evaluate (fun name => some (valuation name)) = some (formula.value valuation) :=
  evaluate_of_agrees fun _ _ => rfl

/-- The value of a formula on a model does not depend on how the model is made total. -/
theorem value_of_evaluate {model : String → Option Bool} {formula : Formula} {value : Bool}
    (h : formula.evaluate model = some value) :
    formula.value (fun name => (model name).getD false) = value := by
  induction formula generalizing value with
  | truth => exact Option.some.inj h
  | var name =>
    rw [evaluate] at h
    rw [Formula.value, h, Option.getD_some]
  | not inner ih =>
    obtain ⟨inner', hinner, rfl⟩ := Option.map_eq_some_iff.1 h
    rw [Formula.value, ih hinner]
  | binary connective first second ihFirst ihSecond =>
    unfold evaluate at h
    split at h
    · rename_i a b hfirst hsecond
      rw [Formula.value, ihFirst hfirst, ihSecond hsecond]
      exact Option.some.inj h
    · cases h

theorem value_foldNot (folded : Formula) : (foldNot folded).value valuation = !folded.value valuation
    := by
  cases folded <;> rfl

/-- A truth value may stand on either side: implication, where it matters, is left as it is. -/
theorem value_withValue (connective : Connective) (b : Bool) (other : Formula) :
    (withValue connective b other).value valuation = connective.apply b (other.value valuation) := by
  cases connective <;> cases b <;> simp [withValue, value, Connective.apply]

theorem apply_comm {connective : Connective} (h : connective ≠ .implies) (a b : Bool) :
    connective.apply a b = connective.apply b a := by
  cases connective with
  | implies => exact absurd rfl h
  | _ => cases a <;> cases b <;> rfl

theorem value_foldBinary (connective : Connective) (first second : Formula) :
    (foldBinary connective first second).value valuation =
      connective.apply (first.value valuation) (second.value valuation) := by
  unfold foldBinary
  split
  · rfl
  · split
    · simp [value, Connective.apply]
    · simp [value, Connective.apply]
    · rw [value_withValue, value]
  · split
    · simp [value, Connective.apply]
    · simp [value, Connective.apply]
    · rename_i b _ _ _ htrue hfalse
      rw [value_withValue, value]
      refine apply_comm (fun heq => ?_) _ _
      cases b with
      | true => exact htrue heq rfl
      | false => exact hfalse heq rfl
  · rfl

theorem value_foldConstants (formula : Formula) :
    formula.foldConstants.value valuation = formula.value valuation := by
  induction formula with
  | truth | var => rfl
  | not inner ih => rw [foldConstants, value_foldNot, ih, value]
  | binary connective first second ihFirst ihSecond =>
    rw [foldConstants, value_foldBinary, ihFirst, ihSecond, value]

end Formula

/-! ## Encodings -/

theorem holds_of_definition {r a b : NamedLiteral} {connective : Connective}
    (h : AllHold valuation (definition r connective a b)) :
    r.holds valuation = connective.apply (a.holds valuation) (b.holds valuation) := by
  revert h
  cases connective <;>
    simp only [definition, allHold_cons, allHold_nil, NamedClause.holds_cons,
      NamedClause.not_holds_nil, NamedLiteral.holds_neg, Connective.apply] <;>
    generalize r.holds valuation = x <;> generalize a.holds valuation = y <;>
    generalize b.holds valuation = z <;> revert x y z <;> decide

namespace Encoder

variable {encoder encoder' : Encoder}

/-- Where the clauses hold, each literal has the value of the subformula that it stands for. -/
def Faithful (valuation : String → Bool) (encoder : Encoder) : Prop :=
  AllHold valuation encoder.clauses →
    ∀ formula literal, (formula, literal) ∈ encoder.representatives →
      literal.holds valuation = formula.value valuation

structure Encoded (valuation : String → Bool) (encoder : Encoder) (formula : Formula)
    (result : NamedLiteral × Encoder) : Prop where
  grows : encoder.clauses <+: result.2.clauses
  faithful : result.2.Faithful valuation
  holds : AllHold valuation result.2.clauses →
    result.1.holds valuation = formula.value valuation

theorem allHold_of_grows (hgrows : clauses <+: clauses') (h : AllHold valuation clauses') :
    AllHold valuation clauses := fun clause hmem => h clause (hgrows.subset hmem)

/-- A new variable stands for a formula if the clauses added give it the value of the formula. -/
theorem Faithful.represent (h : encoder.Faithful valuation) (formula : Formula)
    (more : List NamedClause)
    (hmore : AllHold valuation encoder.clauses → AllHold valuation more →
      (encoder.represent formula).1.holds valuation = formula.value valuation) :
    Encoded valuation encoder formula
      ((encoder.represent formula).1, (encoder.represent formula).2.add more) := by
  have hholds : AllHold valuation (encoder.clauses ++ more) →
      (encoder.represent formula).1.holds valuation = formula.value valuation := fun hall =>
    hmore (allHold_append.1 hall).1 (allHold_append.1 hall).2
  refine ⟨List.prefix_append _ _, fun hall other literal hmem => ?_, hholds⟩
  rcases List.mem_cons.1 hmem with heq | hmem
  · cases heq
    exact hholds hall
  · exact h (allHold_append.1 hall).1 other literal hmem

theorem mem_of_lookup {representatives : List (Formula × NamedLiteral)} {formula : Formula}
    {literal : NamedLiteral} (h : representatives.lookup formula = some literal) :
    (formula, literal) ∈ representatives := by
  obtain ⟨front, back, rfl, _⟩ := List.lookup_eq_some_iff.1 h
  exact List.mem_append_right _ List.mem_cons_self

theorem literalOf_spec (formula : Formula) (h : encoder.Faithful valuation) :
    Encoded valuation encoder formula (encoder.literalOf formula) := by
  -- by induction on the formula; clauses added later keep what the earlier ones fixed
  induction formula generalizing encoder with
  | truth value =>
    refine h.represent (.truth value) _ fun _ hmore => ?_
    simp only [allHold_cons, NamedClause.holds_cons, NamedClause.not_holds_nil, or_false] at hmore
    cases value with
    | true => exact hmore.1
    | false =>
      have hholds : (-(encoder.represent (.truth false)).1).holds valuation = true := hmore.1
      rwa [NamedLiteral.holds_neg, Bool.not_eq_true'] at hholds
  | var name => exact ⟨List.prefix_refl _, h, fun _ => beq_true (valuation name)⟩
  | not inner ih =>
    obtain ⟨hgrows, hfaithful, hholds⟩ := ih h
    refine ⟨hgrows, hfaithful, fun hall => ?_⟩
    rw [Formula.value, ← hholds hall]
    exact NamedLiteral.holds_neg _
  | binary connective first second ihFirst ihSecond =>
    unfold literalOf
    split
    · rename_i literal hlookup
      exact ⟨List.prefix_refl _, h, fun hall => h hall _ _ (mem_of_lookup hlookup)⟩
    · obtain ⟨hgrows, hfaithful, hfirst⟩ := ihFirst h
      obtain ⟨hgrows', hfaithful', hsecond⟩ := ihSecond hfaithful
      obtain ⟨hgrows'', hfaithful'', hholds⟩ := hfaithful'.represent (.binary connective first second)
        (definition _ connective (encoder.literalOf first).1
          ((encoder.literalOf first).2.literalOf second).1) fun hall hmore => by
          rw [holds_of_definition hmore, hfirst (allHold_of_grows hgrows' hall), hsecond hall,
            Formula.value]
      exact ⟨(hgrows.trans hgrows').trans hgrows'', hfaithful'', hholds⟩

end Encoder

namespace Formula

variable {formula : Formula} {names : FreshNames}

/-- The literal of a whole formula, and what is produced on the way to it. -/
def encoding (formula : Formula) (names : FreshNames) : NamedLiteral × Encoder :=
  Encoder.literalOf { names := names.avoid formula.variableNames } formula

/-- What the encoding of a formula is: the truth value that the formula folds to, or the clauses of
the folded formula along with its literal. -/
theorem encode_cases (formula : Formula) (names : FreshNames) :
    (∃ value, formula.foldConstants = truth value ∧
      formula.encode names = (if value then .always else .never, names)) ∨
    ((∀ value, formula.foldConstants ≠ truth value) ∧ formula.encode names =
      (Cnf.ofClauses ((formula.foldConstants.encoding names).2.clauses ++
        [[(formula.foldConstants.encoding names).1]]), (formula.foldConstants.encoding names).2.names)) := by
  unfold encode
  split
  · rename_i heq
    exact Or.inl ⟨true, heq, rfl⟩
  · rename_i heq
    exact Or.inl ⟨false, heq, rfl⟩
  · rename_i htrue hfalse
    refine Or.inr ⟨fun value heq => ?_, rfl⟩
    cases value with
    | true => exact htrue heq
    | false => exact hfalse heq

theorem encoded_encoding (valuation : String → Bool) (formula : Formula) (names : FreshNames) :
    Encoder.Encoded valuation { names := names.avoid formula.variableNames } formula
      (formula.encoding names) :=
  Encoder.literalOf_spec formula fun _ _ _ hmem => absurd hmem List.not_mem_nil

/-- A valuation that makes the clauses of an encoding true makes the formula true. -/
theorem value_of_encode (h : (formula.encode names).1.holds valuation = true) :
    formula.value valuation = true := by
  rw [← value_foldConstants]
  rcases encode_cases formula names with ⟨value, htruth, heq⟩ | ⟨-, heq⟩
  · rw [heq] at h
    rw [htruth]
    cases value with
    | true => rfl
    | false => exact absurd h (by simp [Cnf.holds])
  · rw [heq, Cnf.holds_ofClauses] at h
    simp only [allHold_append, allHold_cons, NamedClause.holds_cons, NamedClause.not_holds_nil,
      or_false] at h
    obtain ⟨hclauses, hroot, -⟩ := h
    rw [← (encoded_encoding valuation formula.foldConstants names).holds hclauses]
    exact hroot

end Formula

end Satisfiability.Propositional
