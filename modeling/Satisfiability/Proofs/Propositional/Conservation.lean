import Satisfiability.Proofs.Propositional.Extension
import Satisfiability.Proofs.Propositional.Folding

/-!
# The encoding as a conservative extension

The clauses of a formula that is no truth value say the same of its variables as the formula, and
give each new variable one value only (`Formula.encode_conservative`). The new variables are the
names that the source has been asked for, which are neither avoided nor variables of the folded
formula. They may be variables of the formula as it was given, since those that folding takes away
are not avoided: where the source reaches one of these, models of the formula are lost, and only
there (`Formula.names_fresh_iff_outOfReach`).
-/

namespace Satisfiability.Propositional

open FreshNames (nameAt)

variable {valuation : String → Bool} {clauses clauses' : List NamedClause} {allowed : List String}

/-! ## What clauses speak of -/

/-- Each clause has some literal, and all its literals are of allowed names. -/
def SpeakOf (allowed : List String) (clauses : List NamedClause) : Prop :=
  ∀ clause ∈ clauses, clause ≠ [] ∧ ∀ literal ∈ clause, literal.name ∈ allowed

theorem SpeakOf.mono {more : List String} (hsubset : allowed ⊆ more) (h : SpeakOf allowed clauses) :
    SpeakOf more clauses := by
  intro clause hmem
  obtain ⟨hsome, hnames⟩ := h clause hmem
  exact ⟨hsome, fun literal hliteral => hsubset (hnames literal hliteral)⟩

theorem speakOf_append :
    SpeakOf allowed (clauses ++ clauses') ↔ SpeakOf allowed clauses ∧ SpeakOf allowed clauses' :=
  List.forall_mem_append

theorem speakOf_literal {literal : NamedLiteral} (h : literal.name ∈ allowed) :
    SpeakOf allowed [[literal]] := by
  simpa [SpeakOf] using h

@[simp]
theorem NamedLiteral.name_neg (literal : NamedLiteral) : (-literal).name = literal.name := rfl

theorem speakOf_definition {r a b : NamedLiteral} (connective : Connective) (hr : r.name ∈ allowed)
    (ha : a.name ∈ allowed) (hb : b.name ∈ allowed) :
    SpeakOf allowed (definition r connective a b) := by
  cases connective <;> simp [SpeakOf, definition, hr, ha, hb]

theorem NamedClause.isTautology_singleton (literal : NamedLiteral) :
    NamedClause.isTautology [literal] = false := by
  have hne : -literal ≠ literal := by
    intro heq
    have hsign : (!literal.positive) = literal.positive := congrArg NamedLiteral.positive heq
    cases hpositive : literal.positive <;> simp [hpositive] at hsign
  simp [NamedClause.isTautology, hne]

theorem Cnf.exists_clauses {root : NamedLiteral} (h : SpeakOf allowed clauses)
    (hroot : [root] ∈ clauses) :
    ∃ kept, ofClauses clauses = .clauses kept ∧ SpeakOf allowed kept := by
  have hempty : ¬ clauses.contains [] := fun hmem => (h [] (List.contains_iff_mem.1 hmem)).1 rfl
  unfold ofClauses
  rw [if_neg hempty]
  split
  · rename_i hnil
    -- the clause of the single literal is no tautology, so that it cannot have been dropped
    have hkept : ascending [root] ∈ (clauses.filter (!·.isTautology)).map ascending := by
      apply List.mem_map_of_mem
      rw [List.mem_filter, NamedClause.isTautology_singleton]
      exact ⟨hroot, rfl⟩
    rw [hnil] at hkept
    exact absurd hkept List.not_mem_nil
  · refine ⟨_, rfl, fun clause hmem => ?_⟩
    obtain ⟨given, hgiven, rfl⟩ := List.mem_map.1 hmem
    obtain ⟨hsome, hnames⟩ := h given (List.mem_filter.1 hgiven).1
    exact ⟨fun hnil => hsome (ascending_eq_nil_iff.1 hnil),
      fun literal hliteral => hnames literal (mem_ascending.1 hliteral)⟩

namespace Encoder

variable {encoder : Encoder} {known : List String} {formula : Formula} {source : FreshNames}

def scope (encoder : Encoder) (known : List String) : List String := encoder.newNames ++ known

theorem scope_literalOf (formula : Formula) (encoder : Encoder) (known : List String) :
    encoder.scope known ⊆ (encoder.literalOf formula).2.scope known := by
  have hgrows := (literalOf_interprets (fun _ => false) formula encoder).grows
  exact ((hgrows.map fun pair => pair.2.name).sublist.append_right known).subset

/-- The subformulas met have known variables only, and the clauses speak of these and the new ones.
-/
structure Scoped (known : List String) (encoder : Encoder) : Prop where
  subformulas : ∀ pair ∈ encoder.representatives, pair.1.occurrences ⊆ known
  clauses : SpeakOf (encoder.scope known) encoder.clauses

theorem Scoped.represent (h : encoder.Scoped known) (hknown : formula.occurrences ⊆ known)
    {more : List NamedClause} (hmore : SpeakOf ((encoder.represent formula).2.scope known) more) :
    ((encoder.represent formula).2.add more).Scoped known := by
  refine ⟨List.forall_mem_cons.2 ⟨hknown, h.subformulas⟩, speakOf_append.2 ⟨?_, hmore⟩⟩
  exact h.clauses.mono (List.subset_cons_self _ _)

theorem Scoped.literalOf (h : encoder.Scoped known) (hknown : formula.occurrences ⊆ known) :
    (encoder.literalOf formula).2.Scoped known ∧
      (encoder.literalOf formula).1.name ∈ (encoder.literalOf formula).2.scope known := by
  induction formula generalizing encoder with
  | truth value =>
    refine ⟨h.represent hknown (speakOf_literal ?_), List.mem_cons_self⟩
    cases value <;> exact List.mem_cons_self
  | var name => exact ⟨h, List.mem_append_right _ (hknown List.mem_cons_self)⟩
  | not inner ih => exact ih h hknown
  | binary connective first second ihFirst ihSecond =>
    obtain ⟨hknownFirst, hknownSecond⟩ := List.append_subset.1 hknown
    unfold Encoder.literalOf
    split
    · rename_i literal hlookup
      refine ⟨h, List.mem_append_left _ ?_⟩
      exact List.mem_map_of_mem (mem_of_lookup hlookup)
    · obtain ⟨hfirst, ha⟩ := ihFirst h hknownFirst
      obtain ⟨hsecond, hb⟩ := ihSecond hfirst hknownSecond
      -- the literal of the first side may stand for a subformula: it is in scope from then on
      have ha' := scope_literalOf second _ known ha
      refine ⟨hsecond.represent hknown ?_, List.mem_cons_self⟩
      apply speakOf_definition
      · exact List.mem_cons_self
      · exact List.mem_cons_of_mem _ ha'
      · exact List.mem_cons_of_mem _ hb

/-! ## Which names are new -/

structure Draws (source : FreshNames) (encoder : Encoder) : Prop where
  stem : encoder.names.stem = source.stem
  avoided : encoder.names.avoided = source.avoided
  counter : source.counter ≤ encoder.names.counter
  mem_newNames : ∀ name, name ∈ encoder.newNames ↔ encoder.names.DrawnSince source.counter name

theorem Draws.represent (h : encoder.Draws source) (formula : Formula) :
    (encoder.represent formula).2.Draws source := by
  have hrises : encoder.names.counter < encoder.names.fresh.2.counter := FreshNames.lt_nextFree ..
  refine ⟨h.stem, h.avoided, Nat.le_of_lt (Nat.lt_of_le_of_lt h.counter hrises), fun name => ?_⟩
  show name ∈ encoder.names.fresh.1 :: encoder.newNames ↔
    encoder.names.fresh.2.DrawnSince source.counter name
  rw [List.mem_cons, h.mem_newNames, FreshNames.drawnSince_fresh h.counter]

theorem Draws.add (h : encoder.Draws source) (more : List NamedClause) : (encoder.add more).Draws source :=
  ⟨h.stem, h.avoided, h.counter, h.mem_newNames⟩

theorem Draws.literalOf (h : encoder.Draws source) (formula : Formula) :
    (encoder.literalOf formula).2.Draws source := by
  refine literalOf_keeps ?_ (List.Subset.refl formula.occurrences) h
  exact fun encoder part more _ hdraws => (hdraws.represent part).add more

end Encoder

namespace Formula

variable {formula : Formula} {names : FreshNames} {name : String}

/-! ## Whole formulas -/

theorem scoped_encoding (formula : Formula) (names : FreshNames) :
    (formula.encoding names).2.Scoped formula.variableNames ∧
      (formula.encoding names).1.name ∈ (formula.encoding names).2.scope formula.variableNames := by
  have hinitial : Encoder.Scoped formula.variableNames { names := names.avoid formula.variableNames } :=
    ⟨List.forall_mem_nil _, List.forall_mem_nil _⟩
  exact hinitial.literalOf fun _ => mem_ascending.2

theorem draws_encoding (formula : Formula) (names : FreshNames) :
    (formula.encoding names).2.Draws (names.avoid formula.variableNames) := by
  have hinitial : Encoder.Draws (names.avoid formula.variableNames)
      { names := names.avoid formula.variableNames } := by
    refine ⟨rfl, rfl, Nat.le_refl _, fun name => ⟨fun hmem => absurd hmem List.not_mem_nil, ?_⟩⟩
    rintro ⟨n, hlt, hle, -, -⟩
    exact absurd hlt (Nat.not_lt_of_le hle)
  exact hinitial.literalOf formula

theorem mem_introduced_iff :
    name ∈ formula.introduced names ↔ (formula.encode names).2.DrawnSince names.counter name := by
  rcases encode_cases formula names with ⟨value, htruth, heq⟩ | ⟨hne, heq⟩
  · rw [introduced_eq_nil htruth, heq]
    refine ⟨fun hmem => absurd hmem List.not_mem_nil, ?_⟩
    rintro ⟨n, hlt, hle, -, -⟩
    exact absurd hlt (Nat.not_lt_of_le hle)
  · rw [introduced_eq_newNames hne, heq]
    exact (draws_encoding formula.foldConstants names).mem_newNames name

theorem stem_avoided_encode (formula : Formula) (names : FreshNames) :
    (formula.encode names).2.stem = names.stem ∧
      (formula.encode names).2.avoided = names.avoided ++ formula.foldConstants.variableNames := by
  rcases encode_cases formula names with ⟨value, htruth, heq⟩ | ⟨-, heq⟩
  · rw [heq, htruth]
    exact ⟨rfl, (List.append_nil _).symm⟩
  · rw [heq]
    have hdraws := draws_encoding formula.foldConstants names
    exact ⟨hdraws.stem, hdraws.avoided⟩

/-- The new variables are those of the numbers gone through that are neither avoided nor variables
of the folded formula. -/
theorem mem_introduced_iff_reached :
    name ∈ formula.introduced names ↔
      (∃ n, names.counter < n ∧ n ≤ (formula.encode names).2.counter ∧ name = nameAt names.stem n) ∧
        name ∉ names.avoided ∧ name ∉ formula.foldConstants.variableNames := by
  obtain ⟨hstem, havoided⟩ := stem_avoided_encode formula names
  rw [mem_introduced_iff, FreshNames.DrawnSince, hstem, havoided, List.mem_append, not_or]
  constructor
  · rintro ⟨n, hlt, hle, hname, hfree⟩
    exact ⟨⟨n, hlt, hle, hname⟩, hfree⟩
  · rintro ⟨⟨n, hlt, hle, hname⟩, hfree⟩
    exact ⟨n, hlt, hle, hname, hfree⟩

theorem exists_kept (h : ∀ value, formula.foldConstants ≠ truth value) (names : FreshNames) :
    ∃ kept, (formula.encode names).1 = .clauses kept ∧
      SpeakOf (formula.introduced names ++ formula.foldConstants.variableNames) kept := by
  rcases encode_cases formula names with ⟨value, htruth, -⟩ | ⟨-, heq⟩
  · exact absurd htruth (h value)
  · rw [heq, introduced_eq_newNames h]
    obtain ⟨hscoped, hroot⟩ := scoped_encoding formula.foldConstants names
    apply Cnf.exists_clauses
    · exact speakOf_append.2 ⟨hscoped.clauses, speakOf_literal hroot⟩
    · exact List.mem_append_right _ List.mem_cons_self

theorem encode_eq_constant_iff (formula : Formula) (names : FreshNames) (value : Bool) :
    (formula.encode names).1 = (if value then .always else .never) ↔
      formula.foldConstants = truth value := by
  rcases encode_cases formula names with ⟨folded, htruth, heq⟩ | ⟨hne, -⟩
  · rw [heq, htruth]
    cases folded <;> cases value <;> simp
  · obtain ⟨kept, hkept, -⟩ := exists_kept hne names
    rw [hkept]
    cases value <;> simp [hne]

theorem eq_of_holds_encode {extended other : String → Bool}
    (hagree : ∀ name ∈ formula.foldConstants.variableNames, extended name = other name)
    (hextended : (formula.encode names).1.holds extended = true)
    (hother : (formula.encode names).1.holds other = true) :
    ∀ name ∈ formula.introduced names, extended name = other name := by
  rcases encode_cases formula names with ⟨value, htruth, -⟩ | ⟨hne, heq⟩
  · rw [introduced_eq_nil htruth]
    exact List.forall_mem_nil _
  · rw [heq, Cnf.holds_ofClauses, allHold_append] at hextended hother
    rw [introduced_eq_newNames hne]
    intro name hname
    obtain ⟨⟨part, literal⟩, hpair, rfl⟩ := List.mem_map.1 hname
    -- where the clauses hold a new variable has the value of its subformula, and this value hangs on
    -- the variables of the whole formula only
    have hpositive := (fresh_encoding formula.foldConstants names).1.positive _ hpair
    have hvalue : ∀ valuation, AllHold valuation (formula.foldConstants.encoding names).2.clauses →
        valuation literal.name = part.value valuation := by
      intro valuation hall
      have hholds := (encoded_encoding valuation formula.foldConstants names).faithful hall _ _ hpair
      rw [← hholds, NamedLiteral.holds, hpositive]
      exact (beq_true _).symm
    have hknown := (scoped_encoding formula.foldConstants names).1.subformulas _ hpair
    calc extended literal.name
        = part.value extended := hvalue extended hextended.1
      _ = part.value other := value_congr fun name hmem => hagree name (hknown hmem)
      _ = other literal.name := (hvalue other hother.1).symm

/-- A normal form over the variables of a formula and new ones that says of the former what the
formula says, and leaves no choice for the latter. -/
structure ConservedBy (formula : Formula) (cnf : Cnf) (new : List String) : Prop where
  speaks : SpeakOf (new ++ formula.variableNames) cnf.named
  extends_iff : ∀ valuation : String → Bool,
    formula.evaluate (fun name => some (valuation name)) = some true ↔
      ∃ extended : String → Bool,
        (∀ name, name ∉ new → extended name = valuation name) ∧ cnf.holds extended = true
  unique : ∀ extended other : String → Bool,
    (∀ name ∈ formula.variableNames, extended name = other name) →
      cnf.holds extended = true → cnf.holds other = true → ∀ name ∈ new, extended name = other name

theorem conservedBy_encode {kept : List NamedClause} (hkept : (formula.encode names).1 = .clauses kept)
    (hspeaks : SpeakOf (formula.introduced names ++ formula.foldConstants.variableNames) kept) :
    formula.foldConstants.ConservedBy (.clauses kept) (formula.introduced names) := by
  refine ⟨hspeaks, fun valuation => ?_, fun extended other hagree => ?_⟩
  · rw [evaluate_eq_value, Option.some.injEq, value_foldConstants, ← hkept]
    constructor
    · exact exists_holds_encode names
    · rintro ⟨extended, hagrees, hholds⟩
      rw [← value_of_encode hholds]
      apply value_congr_foldConstants
      intro name hname
      exact (hagrees name fun hnew => (mem_introduced_iff_reached.1 hnew).2.2 hname).symm
  · rw [← hkept]
    exact eq_of_holds_encode hagree

/-- The encoding of a formula that folds to a truth value is this value. That of any other formula
consists of clauses: a valuation makes the folded formula true exactly if the new variables can be
given values so that all clauses are true, and these values are the only ones. The new variables are
the names drawn from the source, which are no variables of the folded formula and not to be avoided.
-/
theorem encode_conservative (formula : Formula) (names : FreshNames) :
    ((formula.encode names).1 = .always ↔ formula.foldConstants = truth true) ∧
      ((formula.encode names).1 = .never ↔ formula.foldConstants = truth false) ∧
      ((∀ value, formula.foldConstants ≠ truth value) →
        ∃ kept, (formula.encode names).1 = .clauses kept ∧
          formula.foldConstants.ConservedBy (.clauses kept) (formula.introduced names)) ∧
      (∀ name, name ∈ formula.introduced names ↔
        (formula.encode names).2.DrawnSince names.counter name) ∧
      ∀ name ∈ formula.introduced names,
        name ∉ formula.foldConstants.variableNames ∧ name ∉ names.avoided := by
  refine ⟨encode_eq_constant_iff formula names true, encode_eq_constant_iff formula names false, ?_,
    fun name => mem_introduced_iff, fun name hnew => ?_⟩
  · intro h
    obtain ⟨kept, hkept, hspeaks⟩ := exists_kept h names
    exact ⟨kept, hkept, conservedBy_encode hkept hspeaks⟩
  · obtain ⟨-, hfree, hlost⟩ := mem_introduced_iff_reached.1 hnew
    exact ⟨hlost, hfree⟩

/-- A subformula twice, whose two sides are the same: `((p<->p)&~(p<->p))`. -/
def repeated : Formula :=
  binary .and (binary .iff (var "p") (var "p")) (not (binary .iff (var "p") (var "p")))

theorem encode_conservative_repeated :
    (∀ value, repeated.foldConstants ≠ truth value) ∧
      (∃ kept, (repeated.encode { avoided := ["z1"] }).1 = .clauses kept ∧
        repeated.foldConstants.ConservedBy (.clauses kept)
          (repeated.introduced { avoided := ["z1"] })) ∧
      "z2" ∈ repeated.introduced { avoided := ["z1"] } ∧
        "z2" ∉ repeated.foldConstants.variableNames ∧ "z2" ∉ ["z1"] := by
  have hne : ∀ value, repeated.foldConstants ≠ truth value := fun value => by cases value <;> decide
  have hnew : "z2" ∈ repeated.introduced { avoided := ["z1"] } := by decide +kernel
  obtain ⟨-, -, hclauses, -, hfresh⟩ := encode_conservative repeated { avoided := ["z1"] }
  exact ⟨hne, hclauses hne, hnew, hfresh "z2" hnew⟩

/-- Each variable that folding takes away is avoided, or has no number that the encoding reaches. -/
def OutOfReach (formula : Formula) (names : FreshNames) : Prop :=
  ∀ name ∈ formula.variableNames, name ∉ formula.foldConstants.variableNames →
    name ∈ names.avoided ∨ ∀ n, names.counter < n → n ≤ (formula.encode names).2.counter →
      name ≠ nameAt names.stem n

/-- Every valuation that makes the formula true keeps its values for the variables of the formula in
some valuation that makes the encoding true. -/
def ModelsExtend (formula : Formula) (names : FreshNames) : Prop :=
  ∀ valuation : String → Bool, formula.evaluate (fun name => some (valuation name)) = some true →
    ∃ extended : String → Bool, (∀ name ∈ formula.variableNames, extended name = valuation name) ∧
      (formula.encode names).1.holds extended = true

theorem introduced_new_iff (formula : Formula) (names : FreshNames) :
    (∀ name ∈ formula.introduced names, name ∉ formula.variableNames) ↔ formula.OutOfReach names := by
  constructor
  · intro hnew name hname hlost
    by_contra hreached
    rw [not_or] at hreached
    obtain ⟨hfree, hreached⟩ := hreached
    push Not at hreached
    exact hnew name (mem_introduced_iff_reached.2 ⟨hreached, hfree, hlost⟩) hname
  · intro hreach name hnew hname
    obtain ⟨⟨n, hlt, hle, heq⟩, hfree, hlost⟩ := mem_introduced_iff_reached.1 hnew
    rcases hreach name hname hlost with havoided | hnever
    · exact hfree havoided
    · exact hnever n hlt hle heq

theorem modelsExtend_iff {model : String → Bool} (hmodel : formula.value model = true) :
    formula.ModelsExtend names ↔ ∀ name ∈ formula.introduced names, name ∉ formula.variableNames := by
  simp only [ModelsExtend, evaluate_eq_value, Option.some.injEq]
  constructor
  · intro hextends name hnew hname
    have hlost := (mem_introduced_iff_reached.1 hnew).2.2
    obtain ⟨extended, hagrees, hholds⟩ := hextends model hmodel
    -- the formula is true whatever the value of the name, while the clauses admit one value only
    let flipped : String → Bool := Function.update model name (!extended name)
    have hsame : ∀ other ∈ formula.foldConstants.variableNames, flipped other = model other := by
      intro other hother
      apply Function.update_of_ne
      rintro rfl
      exact hlost hother
    have hflipped : formula.value flipped = true := by
      rw [← hmodel]
      exact value_congr_foldConstants hsame
    obtain ⟨extended', hagrees', hholds'⟩ := hextends flipped hflipped
    have hfixed : extended' name = extended name := by
      refine eq_of_holds_encode (fun other hother => ?_) hholds' hholds name hnew
      have hmem := variableNames_foldConstants formula hother
      rw [hagrees' other hmem, hagrees other hmem, hsame other hother]
    have hdiffers : extended' name = !extended name :=
      (hagrees' name hname).trans (Function.update_self ..)
    rw [hfixed] at hdiffers
    exact Bool.not_ne_self _ hdiffers.symm
  · intro hnew valuation hvalue
    obtain ⟨extended, hagrees, hholds⟩ := exists_holds_encode names hvalue
    exact ⟨extended, fun name hname => hagrees name fun hmem => hnew name hmem hname, hholds⟩

/-- The new variables are none of those of the formula as it was given exactly if the encoding does
not reach a variable that folding has taken away; and exactly then all models of the formula, if it
has any, extend to them. -/
theorem names_fresh_iff_outOfReach (formula : Formula) (names : FreshNames) :
    ((∀ name ∈ formula.introduced names, name ∉ formula.variableNames) ↔ formula.OutOfReach names) ∧
      ∀ model : String → Bool, formula.evaluate (fun name => some (model name)) = some true →
        (formula.ModelsExtend names ↔ formula.OutOfReach names) := by
  refine ⟨introduced_new_iff formula names, fun model hmodel => ?_⟩
  rw [evaluate_eq_value, Option.some.injEq] at hmodel
  rw [modelsExtend_iff hmodel, introduced_new_iff]

/-- A formula with a variable that folding takes away, and that is named like the first one of the
source: `((z1|T)&(q|r))`. -/
def takenAway : Formula :=
  binary .and (binary .or (var "z1") (truth true)) (binary .or (var "q") (var "r"))

theorem names_fresh_takenAway :
    takenAway.evaluate (fun _ => some true) = some true ∧ takenAway.OutOfReach { avoided := ["z1"] } ∧
      (∀ name ∈ takenAway.introduced { avoided := ["z1"] }, name ∉ takenAway.variableNames) ∧
      takenAway.ModelsExtend { avoided := ["z1"] } := by
  have hreach : takenAway.OutOfReach { avoided := ["z1"] } := by
    intro name hname hlost
    left
    have hvariables : takenAway.variableNames = ["q", "r", "z1"] := by decide +kernel
    have hfolded : takenAway.foldConstants.variableNames = ["q", "r"] := by decide +kernel
    rw [hvariables] at hname
    rw [hfolded] at hlost
    grind
  obtain ⟨hnew, hextends⟩ := names_fresh_iff_outOfReach takenAway { avoided := ["z1"] }
  have hmodel : takenAway.evaluate (fun _ => some true) = some true := rfl
  exact ⟨hmodel, hreach, hnew.2 hreach, (hextends (fun _ => true) hmodel).2 hreach⟩

/-- Where the name is not avoided it stands for the disjunction, although it is a variable of the
formula: with the value false, which the formula allows, the clauses are not true. -/
theorem encode_takes_variable :
    ("z1" ∈ takenAway.introduced {} ∧ "z1" ∈ takenAway.variableNames) ∧ ¬ takenAway.ModelsExtend {} := by
  have hvariable : "z1" ∈ takenAway.variableNames := by decide +kernel
  refine ⟨⟨by decide +kernel, hvariable⟩, fun hextends => ?_⟩
  obtain ⟨extended, hagrees, hholds⟩ := hextends (fun name => name != "z1") rfl
  have hfalse : extended "z1" = false := hagrees "z1" hvariable
  have hcnf : (takenAway.encode {}).1 = .clauses [[⟨"q", true⟩, ⟨"r", true⟩, ⟨"z1", false⟩],
      [⟨"q", false⟩, ⟨"z1", true⟩], [⟨"r", false⟩, ⟨"z1", true⟩], [⟨"z1", true⟩]] := by
    decide +kernel
  rw [hcnf] at hholds
  simp [Cnf.holds, NamedLiteral.holds, hfalse] at hholds

end Formula

end Satisfiability.Propositional
