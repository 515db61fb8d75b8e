import Satisfiability.Proofs.FreshNames
import Satisfiability.Proofs.KeyMap
import Satisfiability.Proofs.Propositional.Encoding

/-!
# Models of an encoding

Every valuation that makes a formula true extends to the variables that the encoding adds so that
all clauses are true (`Formula.exists_holds_encode`). The clauses say no more than that each literal
has the value of the subformula that it stands for (`Encoder.literalOf_interprets`), and values of
this kind can be given to the new variables, since they differ from each other and from the
variables of the formula (`Encoder.Fresh.interprets_interpretation`).
-/

namespace Satisfiability.Propositional

variable {valuation : String → Bool}

/-- The defining clauses hold where the variable has the value of what it is defined as. -/
theorem allHold_definition {r a b : NamedLiteral} {connective : Connective}
    (h : r.holds valuation = connective.apply (a.holds valuation) (b.holds valuation)) :
    AllHold valuation (definition r connective a b) := by
  revert h
  cases connective <;>
    simp only [definition, allHold_cons, allHold_nil, NamedClause.holds_cons,
      NamedClause.not_holds_nil, NamedLiteral.holds_neg, Connective.apply] <;>
    generalize r.holds valuation = x <;> generalize a.holds valuation = y <;>
    generalize b.holds valuation = z <;> revert x y z <;> decide

namespace Encoder

variable {encoder encoder' : Encoder}

/-! ## What makes the clauses true -/

/-- Each literal has the value of the subformula that it stands for. -/
def Interprets (valuation : String → Bool) (encoder : Encoder) : Prop :=
  ∀ formula literal, (formula, literal) ∈ encoder.representatives →
    literal.holds valuation = formula.value valuation

theorem Interprets.mono (hsuffix : encoder.representatives <:+ encoder'.representatives)
    (h : encoder'.Interprets valuation) : encoder.Interprets valuation :=
  fun formula literal hmem => h formula literal (hsuffix.subset hmem)

structure Interpreted (valuation : String → Bool) (encoder : Encoder) (formula : Formula)
    (result : NamedLiteral × Encoder) : Prop where
  grows : encoder.representatives <:+ result.2.representatives
  holds : result.2.Interprets valuation → result.1.holds valuation = formula.value valuation
  clauses : AllHold valuation encoder.clauses → result.2.Interprets valuation →
    AllHold valuation result.2.clauses

theorem interpreted_represent (valuation : String → Bool) (encoder : Encoder) (formula : Formula)
    (more : List NamedClause)
    (hmore : (encoder.represent formula).2.Interprets valuation → AllHold valuation more) :
    Interpreted valuation encoder formula
      ((encoder.represent formula).1, (encoder.represent formula).2.add more) :=
  ⟨List.suffix_cons _ _, fun h => h formula _ List.mem_cons_self,
    fun hall h => allHold_append.2 ⟨hall, hmore h⟩⟩

/-- Where each literal has the value of its subformula, the clauses are true. -/
theorem literalOf_interprets (valuation : String → Bool) (formula : Formula) (encoder : Encoder) :
    Interpreted valuation encoder formula (encoder.literalOf formula) := by
  induction formula generalizing encoder with
  | truth value =>
    refine interpreted_represent valuation encoder _ _ fun h => ?_
    have hholds := h (.truth value) _ List.mem_cons_self
    simp only [allHold_cons, allHold_nil, NamedClause.holds_cons, NamedClause.not_holds_nil,
      or_false, and_true]
    cases value with
    | true => exact hholds
    | false =>
      refine (NamedLiteral.holds_neg _).trans ?_
      rw [hholds]
      rfl
  | var name => exact ⟨List.suffix_refl _, fun _ => beq_true (valuation name), fun hall _ => hall⟩
  | not inner ih =>
    obtain ⟨hgrows, hholds, hclauses⟩ := ih encoder
    refine ⟨hgrows, fun h => ?_, hclauses⟩
    rw [Formula.value, ← hholds h]
    exact NamedLiteral.holds_neg _
  | binary connective first second ihFirst ihSecond =>
    unfold literalOf
    split
    · rename_i literal hlookup
      exact ⟨List.suffix_refl _, fun h => h _ _ (mem_of_lookup hlookup), fun hall _ => hall⟩
    · -- the definition is read with the values of the two sides, encoded one after the other
      obtain ⟨hgrows, hfirst, hclauses⟩ := ihFirst encoder
      obtain ⟨hgrows', hsecond, hclauses'⟩ := ihSecond (encoder.literalOf first).2
      obtain ⟨hgrows'', hholds, hclauses''⟩ := interpreted_represent valuation
        ((encoder.literalOf first).2.literalOf second).2 (.binary connective first second)
        (definition _ connective (encoder.literalOf first).1
          ((encoder.literalOf first).2.literalOf second).1) fun h => allHold_definition (by
          have h' := h.mono (List.suffix_cons _ _)
          rw [h _ _ List.mem_cons_self, hfirst (h'.mono hgrows'), hsecond h', Formula.value])
      refine ⟨(hgrows.trans hgrows').trans hgrows'', hholds, fun hall h => ?_⟩
      have h' := h.mono hgrows''
      exact hclauses'' (hclauses' (hclauses hall (h'.mono hgrows')) h') h

/-! ## Values for the new variables -/

def newNames (encoder : Encoder) : List String := encoder.representatives.map fun pair => pair.2.name

/-- The variables that stand for subformulas are new: they differ from each other and from all names
to be avoided, among which are the variables of the subformulas. -/
structure Fresh (encoder : Encoder) : Prop where
  positive : ∀ pair ∈ encoder.representatives, pair.2.positive = true
  distinct : (encoder.representatives.map fun pair => pair.2.name).Nodup
  drawn : ∀ pair ∈ encoder.representatives, encoder.names.Drawn pair.2.name
  new : ∀ pair ∈ encoder.representatives, pair.2.name ∉ encoder.names.avoided
  known : ∀ pair ∈ encoder.representatives, pair.1.occurrences ⊆ encoder.names.avoided

theorem Fresh.represent (h : encoder.Fresh) {formula : Formula}
    (hknown : formula.occurrences ⊆ encoder.names.avoided) :
    (encoder.represent formula).2.Fresh := by
  have hfresh : encoder.names.fresh.1 ∉ encoder.representatives.map fun pair => pair.2.name := by
    rw [List.mem_map]
    rintro ⟨pair, hmem, heq⟩
    exact encoder.names.not_drawn_fresh (heq ▸ h.drawn pair hmem)
  exact ⟨List.forall_mem_cons.2 ⟨rfl, h.positive⟩, List.nodup_cons.2 ⟨hfresh, h.distinct⟩,
    List.forall_mem_cons.2 ⟨encoder.names.drawn_fresh, fun pair hmem => (h.drawn pair hmem).fresh⟩,
    List.forall_mem_cons.2 ⟨encoder.names.fresh_not_avoided, h.new⟩,
    List.forall_mem_cons.2 ⟨hknown, h.known⟩⟩

theorem Fresh.add (h : encoder.Fresh) (more : List NamedClause) : (encoder.add more).Fresh :=
  ⟨h.positive, h.distinct, h.drawn, h.new, h.known⟩

/-- What holds still after a new variable for a subformula and some clauses holds after an encoding.
-/
theorem literalOf_keeps {motive : Encoder → Prop} {known : List String}
    (represent : ∀ (encoder : Encoder) (part : Formula) (more : List NamedClause),
      part.occurrences ⊆ known → motive encoder → motive ((encoder.represent part).2.add more))
    {formula : Formula} (hknown : formula.occurrences ⊆ known) (h : motive encoder) :
    motive (encoder.literalOf formula).2 := by
  induction formula generalizing encoder with
  | truth value => exact represent encoder (.truth value) _ hknown h
  | var name => exact h
  | not inner ih => exact ih hknown h
  | binary connective first second ihFirst ihSecond =>
    obtain ⟨hknownFirst, hknownSecond⟩ := List.append_subset.1 hknown
    unfold Encoder.literalOf
    split
    · exact h
    · exact represent _ (.binary connective first second) _ hknown
        (ihSecond hknownSecond (ihFirst hknownFirst h))

theorem Fresh.literalOf {formula : Formula} (h : encoder.Fresh)
    (hknown : formula.occurrences ⊆ encoder.names.avoided) :
    (encoder.literalOf formula).2.Fresh ∧
      (encoder.literalOf formula).2.names.avoided = encoder.names.avoided := by
  refine literalOf_keeps (motive := fun result =>
    result.Fresh ∧ result.names.avoided = encoder.names.avoided) ?_ hknown ⟨h, rfl⟩
  rintro result part more hpart ⟨hfresh, havoided⟩
  exact ⟨(hfresh.represent (havoided.symm ▸ hpart)).add more, havoided⟩

/-- The values of the variables that stand for subformulas, and those of the valuation for all other
names. -/
def interpretation (encoder : Encoder) (valuation : String → Bool) (name : String) : Bool :=
  match KeyMap.get? name (encoder.representatives.map fun pair => (pair.2.name, pair.1)) with
  | some formula => formula.value valuation
  | none => valuation name

theorem Fresh.not_mem_newNames (h : encoder.Fresh) {name : String} (hmem : name ∈ encoder.names.avoided) :
    name ∉ encoder.newNames := by
  intro hnew
  obtain ⟨pair, hpair, rfl⟩ := List.mem_map.1 hnew
  exact h.new pair hpair hmem

theorem interpretation_of_not_mem {name : String} (h : name ∉ encoder.newNames) :
    encoder.interpretation valuation name = valuation name := by
  have hnone : KeyMap.get? name (encoder.representatives.map fun pair => (pair.2.name, pair.1)) = none := by
    rw [KeyMap.get?_eq_none_iff, List.map_map]
    exact h
  rw [interpretation, hnone]

/-- Some values for the new variables make each of them stand for its subformula. -/
theorem Fresh.interprets_interpretation (h : encoder.Fresh) (valuation : String → Bool) :
    encoder.Interprets (encoder.interpretation valuation) := by
  intro formula literal hmem
  have hnames : ((encoder.representatives.map fun pair => (pair.2.name, pair.1)).map
      Prod.fst).Nodup := by
    rw [List.map_map]
    exact h.distinct
  have hget := KeyMap.get?_of_mem hnames (List.mem_map_of_mem hmem)
  have hvalue : encoder.interpretation valuation literal.name = formula.value valuation := by
    rw [interpretation, hget]
  have hholds : literal.holds (encoder.interpretation valuation) = formula.value valuation := by
    rw [NamedLiteral.holds, h.positive _ hmem, hvalue]
    exact beq_true _
  rw [hholds]
  refine Formula.value_congr fun name hname => ?_
  exact (interpretation_of_not_mem (h.not_mem_newNames (h.known _ hmem hname))).symm

end Encoder

/-! ## Whole formulas -/

namespace Formula

variable {formula : Formula} {names : FreshNames}

theorem occurrences_subset_avoid (formula : Formula) (names : FreshNames) :
    formula.occurrences ⊆ (names.avoid formula.variableNames).avoided := fun _ hmem =>
  List.mem_append_right _ (mem_ascending.2 hmem)

theorem fresh_encoding (formula : Formula) (names : FreshNames) :
    (formula.encoding names).2.Fresh ∧
      (formula.encoding names).2.names.avoided = (names.avoid formula.variableNames).avoided := by
  have hinitial : Encoder.Fresh { names := names.avoid formula.variableNames } :=
    ⟨List.forall_mem_nil _, List.nodup_nil, List.forall_mem_nil _, List.forall_mem_nil _,
      List.forall_mem_nil _⟩
  exact hinitial.literalOf (occurrences_subset_avoid formula names)

theorem not_mem_newNames_encoding {name : String} (h : name ∈ formula.variableNames) :
    name ∉ (formula.encoding names).2.newNames := by
  obtain ⟨hfresh, havoided⟩ := fresh_encoding formula names
  apply hfresh.not_mem_newNames
  rw [havoided]
  exact List.mem_append_right _ h

/-- A valuation that makes a formula true, with the right values for the new variables, makes the
clauses true. -/
theorem exists_allHold_encoding (names : FreshNames) (h : formula.value valuation = true) :
    ∃ extended : String → Bool,
      (∀ name, name ∉ (formula.encoding names).2.newNames → extended name = valuation name) ∧
        AllHold extended ((formula.encoding names).2.clauses ++ [[(formula.encoding names).1]]) := by
  have hagrees : ∀ name ∈ formula.occurrences,
      (formula.encoding names).2.interpretation valuation name = valuation name := fun name hmem =>
    Encoder.interpretation_of_not_mem (not_mem_newNames_encoding (mem_ascending.2 hmem))
  have hinterprets := (fresh_encoding formula names).1.interprets_interpretation valuation
  obtain ⟨-, hholds, hclauses⟩ := Encoder.literalOf_interprets
    ((formula.encoding names).2.interpretation valuation) formula
    { names := names.avoid formula.variableNames }
  refine ⟨_, fun name => Encoder.interpretation_of_not_mem, allHold_append.2
    ⟨hclauses allHold_nil hinterprets, allHold_cons.2 ⟨?_, allHold_nil⟩⟩⟩
  rw [NamedClause.holds_cons]
  left
  calc (formula.encoding names).1.holds ((formula.encoding names).2.interpretation valuation)
      = formula.value ((formula.encoding names).2.interpretation valuation) := hholds hinterprets
    _ = formula.value valuation := value_congr hagrees
    _ = true := h

def introduced (formula : Formula) (names : FreshNames) : List String :=
  match formula.foldConstants with
  | truth _ => []
  | folded => (folded.encoding names).2.newNames

theorem introduced_eq_nil {value : Bool} (h : formula.foldConstants = truth value) :
    formula.introduced names = [] := by
  rw [introduced, h]

theorem introduced_eq_newNames (h : ∀ value, formula.foldConstants ≠ truth value) :
    formula.introduced names = (formula.foldConstants.encoding names).2.newNames := by
  unfold introduced
  split
  · rename_i heq
    exact absurd heq (h _)
  · rfl

/-- Every valuation that makes the formula true becomes one that makes the clauses of the encoding
true by a change of the new variables. -/
theorem exists_holds_encode (names : FreshNames) (h : formula.value valuation = true) :
    ∃ extended : String → Bool,
      (∀ name, name ∉ formula.introduced names → extended name = valuation name) ∧
        (formula.encode names).1.holds extended = true := by
  rw [← value_foldConstants] at h
  rcases encode_cases formula names with ⟨value, htruth, heq⟩ | ⟨hne, heq⟩
  · rw [htruth] at h
    obtain rfl : value = true := h
    refine ⟨valuation, fun _ _ => rfl, ?_⟩
    rw [heq]
    rfl
  · rw [heq, introduced_eq_newNames hne]
    obtain ⟨extended, hagrees, hall⟩ := exists_allHold_encoding names h
    exact ⟨extended, hagrees, Cnf.holds_ofClauses.2 hall⟩

end Formula

end Satisfiability.Propositional
