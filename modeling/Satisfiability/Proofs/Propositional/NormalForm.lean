import Satisfiability.Proofs.Propositional.Encoding
import Satisfiability.Proofs.Traversal

/-!
# Reading a conjunctive normal form

A formula that is in conjunctive normal form as it stands has the same models as the normal form
read off it (`Formula.holds_of_toCnf`): the connectives that are taken apart are `&` and, below
them, `|`, and a truth value satisfies its disjunction or adds nothing to it. Formulas of this shape
(`Formula.IsNormal`) and no others are read (`Formula.toCnf_reads_normal`), since every disjunct is
looked at, also beside one that satisfies the disjunction already.
-/

namespace Satisfiability.Propositional

variable {valuation : String → Bool} {formula : Formula}

namespace Cnf

/-- Some clauses, none of them empty, repeating a literal, or true whatever the values; or a
constant. -/
inductive Proper : Cnf → Prop
  | always : Proper .always
  | never : Proper .never
  | clauses {kept : List NamedClause} (some : kept ≠ [])
    (proper : ∀ clause ∈ kept, clause ≠ [] ∧ clause.Nodup ∧ ∀ literal ∈ clause, -literal ∉ clause) :
    Proper (.clauses kept)

theorem proper_ofClauses (clauses : List NamedClause) : (ofClauses clauses).Proper := by
  unfold ofClauses
  split
  · exact .never
  · rename_i hempty
    split
    · exact .always
    · rename_i hsome
      refine .clauses (fun hnil => hsome hnil) fun clause hmem => ?_
      obtain ⟨given, hgiven, rfl⟩ := List.mem_map.1 hmem
      obtain ⟨hgiven, hkept⟩ := List.mem_filter.1 hgiven
      refine ⟨fun hnil => ?_, nodup_ascending given, fun literal hliteral hneg => ?_⟩
      · rw [ascending_eq_nil_iff] at hnil
        exact hempty (List.contains_iff_mem.2 (hnil ▸ hgiven))
      · have hneg' : -literal ∈ given := mem_ascending.1 hneg
        have htautology : NamedClause.isTautology given = true := by
          rw [NamedClause.isTautology, List.any_eq_true]
          exact ⟨literal, mem_ascending.1 hliteral, List.contains_iff_mem.2 hneg'⟩
        rw [htautology] at hkept
        cases hkept

end Cnf

namespace Formula

theorem value_eq_true_iff_conjuncts :
    formula.value valuation = true ↔ ∀ part ∈ formula.conjuncts, part.value valuation = true := by
  fun_induction conjuncts formula with
  | case1 first second ihFirst ihSecond =>
    rw [value, Connective.apply, Bool.and_eq_true, ihFirst, ihSecond, List.forall_mem_append]
  | case2 => rw [List.forall_mem_singleton]

theorem value_eq_true_iff_disjuncts :
    formula.value valuation = true ↔ ∃ part ∈ formula.disjuncts, part.value valuation = true := by
  fun_induction disjuncts formula with
  | case1 first second ihFirst ihSecond =>
    simp only [value, Connective.apply, Bool.or_eq_true, ihFirst, ihSecond, List.mem_append,
      or_and_right, exists_or]
  | case2 => simp only [List.mem_singleton, exists_eq_left]

theorem value_of_literalOrTruth? {part : NamedLiteral ⊕ Bool}
    (h : formula.literalOrTruth? = some part) :
    formula.value valuation = part.elim (·.holds valuation) id := by
  unfold literalOrTruth? at h
  split at h
  · cases h
    exact (beq_true _).symm
  · cases h
    rfl
  · cases h
    exact (beq_false _).symm
  · cases h
    rfl
  · cases h

theorem contains_true_iff {parts : List (NamedLiteral ⊕ Bool)} :
    parts.contains (.inr true) = true ↔ .inr true ∈ parts := by
  rw [List.contains_iff_exists_mem_beq]
  constructor
  · rintro ⟨literal | value, hmem, heq⟩
    · cases heq
    · obtain rfl : true = value := eq_of_beq heq
      exact hmem
  · exact fun hmem => ⟨_, hmem, rfl⟩

/-- A disjunction is true exactly if its clause is, or if one of its truth values makes it true and
there is no clause. -/
theorem value_of_clauseOf? {clause? : Option NamedClause} (h : formula.clauseOf? = some clause?) :
    formula.value valuation = true ↔ ∀ clause ∈ clause?, NamedClause.Holds valuation clause := by
  obtain ⟨parts, hparts, hclause⟩ := Option.map_eq_some_iff.1 h
  -- the formula is the disjunction of its parts, some of which are truth values
  have hvalues : formula.value valuation = true ↔
      ∃ part ∈ parts, part.elim (·.holds valuation) id = true := by
    rw [value_eq_true_iff_disjuncts]
    have hforall := mapM_eq_some_iff.1 hparts
    clear hparts hclause
    generalize formula.disjuncts = disjuncts at hforall
    induction hforall with
    | nil => simp
    | cons hfirst _ ih =>
      simp only [List.mem_cons, exists_eq_or_imp, ih, value_of_literalOrTruth? hfirst]
  rw [hvalues]
  split at hclause
  · rename_i htrue
    cases hclause
    exact ⟨fun _ => by simp, fun _ => ⟨.inr true, contains_true_iff.1 htrue, rfl⟩⟩
  · rename_i htrue
    cases hclause
    simp only [Option.mem_def, Option.some.injEq, forall_eq']
    constructor
    · rintro ⟨literal | value, hmem, hholds⟩
      · exact ⟨literal, List.mem_filterMap.2 ⟨_, hmem, rfl⟩, hholds⟩
      · obtain rfl : value = true := hholds
        exact absurd (contains_true_iff.2 hmem) htrue
    · rintro ⟨literal, hmem, hholds⟩
      obtain ⟨part, hpart, heq⟩ := List.mem_filterMap.1 hmem
      rw [Sum.getLeft?_eq_some_iff] at heq
      exact ⟨part, hpart, heq ▸ hholds⟩

/-- The normal form read off a formula is true exactly where the formula is. -/
theorem holds_of_toCnf {cnf : Cnf} (h : formula.toCnf = .ok cnf) :
    cnf.holds valuation = true ↔ formula.value valuation = true := by
  unfold toCnf at h
  split at h
  · cases h
  · rename_i clauses hclauses
    cases h
    rw [Cnf.holds_ofClauses, value_eq_true_iff_conjuncts]
    have hforall := mapM_eq_some_iff.1 hclauses
    clear hclauses
    generalize formula.conjuncts = conjuncts at hforall
    induction hforall with
    | nil => simp
    | @cons part clause? rest _ hfirst _ ih =>
      rw [List.forall_mem_cons, value_of_clauseOf? hfirst, ← propext ih]
      cases clause? with
      | none => simp
      | some clause => simp

/-! ## The formulas that are read -/

inductive IsLiteral : Formula → Prop
  | var (name : String) : IsLiteral (.var name)
  | truth (value : Bool) : IsLiteral (.truth value)
  | notVar (name : String) : IsLiteral (.not (.var name))
  | notTruth (value : Bool) : IsLiteral (.not (.truth value))

inductive IsDisjunction : Formula → Prop
  | literal {formula : Formula} : formula.IsLiteral → IsDisjunction formula
  | or {first second : Formula} :
    first.IsDisjunction → second.IsDisjunction → IsDisjunction (binary .or first second)

/-- A conjunction of disjunctions of literals, nested in any way. -/
inductive IsNormal : Formula → Prop
  | disjunction {formula : Formula} : formula.IsDisjunction → IsNormal formula
  | and {first second : Formula} :
    first.IsNormal → second.IsNormal → IsNormal (binary .and first second)

theorem exists_literalOrTruth?_iff :
    (∃ part, formula.literalOrTruth? = some part) ↔ formula.IsLiteral := by
  constructor
  · rintro ⟨part, hpart⟩
    unfold literalOrTruth? at hpart
    split at hpart
    · exact .var _
    · exact .truth _
    · exact .notVar _
    · exact .notTruth _
    · cases hpart
  · intro h
    cases h <;> exact ⟨_, rfl⟩

theorem isDisjunction_iff_disjuncts :
    formula.IsDisjunction ↔ ∀ part ∈ formula.disjuncts, part.IsLiteral := by
  fun_induction disjuncts formula with
  | case1 first second ihFirst ihSecond =>
    rw [List.forall_mem_append, ← ihFirst, ← ihSecond]
    constructor
    · intro h
      cases h with
      | literal h => cases h
      | or hfirst hsecond => exact ⟨hfirst, hsecond⟩
    · exact fun h => .or h.1 h.2
  | case2 formula hor =>
    rw [List.forall_mem_singleton]
    constructor
    · intro h
      cases h with
      | literal h => exact h
      | or => exact (hor _ _ rfl).elim
    · exact .literal

theorem isNormal_iff_conjuncts :
    formula.IsNormal ↔ ∀ part ∈ formula.conjuncts, part.IsDisjunction := by
  fun_induction conjuncts formula with
  | case1 first second ihFirst ihSecond =>
    rw [List.forall_mem_append, ← ihFirst, ← ihSecond]
    constructor
    · intro h
      cases h with
      | disjunction h =>
        cases h with
        | literal h => cases h
      | and hfirst hsecond => exact ⟨hfirst, hsecond⟩
    · exact fun h => .and h.1 h.2
  | case2 formula hand =>
    rw [List.forall_mem_singleton]
    constructor
    · intro h
      cases h with
      | disjunction h => exact h
      | and => exact (hand _ _ rfl).elim
    · exact .disjunction

theorem exists_clauseOf?_iff :
    (∃ clause?, formula.clauseOf? = some clause?) ↔ formula.IsDisjunction := by
  simp only [isDisjunction_iff_disjuncts, ← exists_literalOrTruth?_iff, ← exists_mapM_iff]
  unfold clauseOf?
  cases formula.disjuncts.mapM literalOrTruth? <;> simp

theorem exists_toCnf_iff : (∃ cnf, formula.toCnf = .ok cnf) ↔ formula.IsNormal := by
  simp only [isNormal_iff_conjuncts, ← exists_clauseOf?_iff, ← exists_mapM_iff]
  unfold toCnf
  cases formula.conjuncts.mapM clauseOf? <;> simp

theorem proper_of_toCnf {cnf : Cnf} (h : formula.toCnf = .ok cnf) : cnf.Proper := by
  unfold toCnf at h
  split at h
  · cases h
  · cases h
    exact Cnf.proper_ofClauses _

theorem evaluate_of_toCnf {cnf : Cnf} (h : formula.toCnf = .ok cnf) (valuation : String → Bool) :
    formula.evaluate (fun name => some (valuation name)) = some (cnf.holds valuation) := by
  rw [evaluate_eq_value, Option.some.injEq, Bool.eq_iff_iff]
  exact (holds_of_toCnf h).symm

/-- Exactly the conjunctions of disjunctions of literals are read, and the normal form read off one
has the value of the formula on every valuation, without an empty clause, a repeated literal or a
clause that is always true. -/
theorem toCnf_reads_normal (formula : Formula) :
    ((∃ cnf, formula.toCnf = .ok cnf) ↔ formula.IsNormal) ∧
      (formula.toCnf = .error .notCnf ↔ ¬ formula.IsNormal) ∧
      ∀ cnf, formula.toCnf = .ok cnf →
        cnf.Proper ∧
          (∀ valuation : String → Bool,
            formula.evaluate (fun name => some (valuation name)) = some (cnf.holds valuation)) ∧
          (cnf = .always → ∀ valuation : String → Bool,
            formula.evaluate (fun name => some (valuation name)) = some true) ∧
          (cnf = .never → ∀ valuation : String → Bool,
            formula.evaluate (fun name => some (valuation name)) = some false) := by
  refine ⟨exists_toCnf_iff, ?_, fun cnf hcnf => ?_⟩
  · rw [← exists_toCnf_iff]
    -- there is no other fault that the reading could end with
    unfold toCnf
    cases formula.conjuncts.mapM clauseOf? <;> simp
  · have hvalue := evaluate_of_toCnf hcnf
    refine ⟨proper_of_toCnf hcnf, hvalue, ?_, ?_⟩
    · rintro rfl valuation
      exact hvalue valuation
    · rintro rfl valuation
      exact hvalue valuation

/-- A truth value satisfies the second disjunction and drops out of the first:
`((p|(q|F))&(~r|~F))`. -/
def settledInPart : Formula :=
  binary .and (binary .or (var "p") (binary .or (var "q") (truth false)))
    (binary .or (not (var "r")) (not (truth false)))

theorem toCnf_reads_settledInPart :
    settledInPart.toCnf = .ok (.clauses [[⟨"p", true⟩, ⟨"q", true⟩]]) ∧
      (Cnf.clauses [[⟨"p", true⟩, ⟨"q", true⟩]]).Proper ∧
      ∀ valuation : String → Bool, settledInPart.evaluate (fun name => some (valuation name)) =
        some ((Cnf.clauses [[⟨"p", true⟩, ⟨"q", true⟩]]).holds valuation) := by
  have hread : settledInPart.toCnf = .ok (.clauses [[⟨"p", true⟩, ⟨"q", true⟩]]) := by decide
  obtain ⟨hproper, hvalue, -, -⟩ := (toCnf_reads_normal settledInPart).2.2 _ hread
  exact ⟨hread, hproper, hvalue⟩

end Formula

end Satisfiability.Propositional
