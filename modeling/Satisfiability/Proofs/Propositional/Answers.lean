import Satisfiability.Proofs.Context.Answers
import Satisfiability.Proofs.Context.Loading
import Satisfiability.Proofs.Propositional.Extension
import Satisfiability.Proofs.Propositional.NormalForm

/-!
# Answers for propositional formulas

A propositional formula is decided, through its encoding and, if it is in conjunctive normal form,
directly (`Propositional.Formula.answers_decide`). All that is used of the normal form that is
searched is that it has a model exactly if the formula has one, where a model of the former is one
of the latter (`Context.answer_spec`). The variables of the formula get their atoms before any
clause is added, so that those that no clause mentions have values as well.
-/

namespace Satisfiability

open Search Step
open Propositional (Cnf)

variable {ρ : Type} {cnf : Cnf}

namespace Propositional.Formula

/-- A result that decides a formula: a model of its variables and no others that makes it true, or
that there is none. -/
inductive DecidedBy (formula : Formula) : Except Fault Answer → Prop
  | satisfiable {model : NameMap Bool}
    (keys : ∀ name, name ∈ model.keys ↔ name ∈ formula.variableNames)
    (holds : formula.evaluate model.find? = some true) : DecidedBy formula (.ok (.satisfiable model))
  | unsatisfiable (none : ∀ model : String → Option Bool, formula.evaluate model ≠ some true) :
    DecidedBy formula (.ok .unsatisfiable)

end Propositional.Formula

namespace Context

variable {ctx ctx' : Context ρ} {names : List String} {name : String} {clauses : List Clause}

/-- The search over a normal form ends with the fault, and in the context it leaves behind there is
no number left for an atom or for a clause. -/
def RunsOut [RandomSource ρ] (config : Config) (random : ρ) (names : List String) (cnf : Cnf)
    (fault : Fault) : Prop :=
  ∃ ctx, (answer names cnf).run.run (empty config random) = (.error fault, ctx) ∧ Depleted fault ctx

theorem mem_modelOf {value : Bool} :
    (name, value) ∈ (names.filterMap fun name => (ctx.model.find? name).map fun value =>
      (name, value)) ↔ name ∈ names ∧ ctx.model.find? name = some value := by
  rw [List.mem_filterMap]
  constructor
  · rintro ⟨other, hmem, hvalue⟩
    obtain ⟨_, hfind, heq⟩ := Option.map_eq_some_iff.1 hvalue
    cases heq
    exact ⟨hmem, hfind⟩
  · rintro ⟨hmem, hfind⟩
    exact ⟨name, hmem, by rw [hfind, Option.map_some]⟩

/-- Names that have values are the keys of the model of these names, with these values. -/
theorem find?_modelOf (hmem : name ∈ names) {value : Bool} (hvalue : ctx.model.find? name = some value) :
    (ctx.modelOf names).find? name = some value := by
  refine KeyMap.find?_ofList_of_mem (fun other hother => ?_) (mem_modelOf.2 ⟨hmem, hvalue⟩)
  exact Option.some.inj ((mem_modelOf.1 hother).2.symm.trans hvalue)

theorem mem_keys_modelOf (hvalues : ∀ name ∈ names, ∃ value, ctx.model.find? name = some value) :
    name ∈ (ctx.modelOf names).keys ↔ name ∈ names := by
  rw [KeyMap.mem_keys_iff]
  constructor
  · rintro ⟨value, hfind⟩
    exact (mem_modelOf.1 (KeyMap.mem_of_find?_ofList hfind)).1
  · intro hmem
    obtain ⟨value, hvalue⟩ := hvalues name hmem
    exact ⟨value, find?_modelOf hmem hvalue⟩

theorem Added.holds_of_moves [RandomSource ρ] [LawfulRandomSource ρ] {start : Context ρ}
    (h : start.Added [] cnf.named ctx clauses)
    (hmoves : Moves (.start, ctx) (.finished .satisfiable, ctx')) : cnf.holds ctx'.truths = true := by
  have hextends := (h.loaded.standing.moves hmoves).extension
  rw [Propositional.Cnf.holds_iff]
  intro named hnamed
  obtain ⟨literals, hliterals, hnumbers⟩ := exists_of_mem_right h.numbers.flip hnamed
  refine holds_of_satisfies (hextends.distinct h.loaded.distinct)
    (hnumbers.imp fun _ _ hnumber => hnumber.keep hextends.retains) ?_
  refine h.loaded.satisfies_of_moves (fun clause hmem literal hliteral => ?_) hmoves literals hliterals
  obtain ⟨_, _, hnumbers'⟩ := exists_of_mem_right h.numbers hmem
  obtain ⟨_, _, hnumber⟩ := exists_of_mem_right hnumbers' hliteral
  exact lt_count_of_name? hnumber.name

theorem Loaded.exists_value [RandomSource ρ] [LawfulRandomSource ρ] (h : ctx.Loaded clauses)
    (hmoves : Moves (.start, ctx) (.finished .satisfiable, ctx'))
    {atom : Atom} (hname : ctx.atoms.name? atom = some name) :
    ∃ value, ctx'.model.find? name = some value := by
  obtain ⟨hextends, _, _, htotal⟩ := h.standing.moves hmoves
  have hlt : atom < ctx'.atoms.count := hextends.count.symm ▸ lt_count_of_name? hname
  obtain ⟨value, hvalue⟩ : ∃ value, ctx'.valuation atom = some value :=
    Option.ne_none_iff_exists'.1 fun hnone => htotal atom hlt (AtomTable.valuation_eq_none.1 hnone)
  exact ⟨value, (hextends.distinct h.distinct).find?_model.2
    ⟨atom, hextends.retains.name _ _ hname, hvalue⟩⟩

variable [RandomSource ρ] [LawfulRandomSource ρ] {formula : Propositional.Formula}

/-- A search over a normal form decides the formula or runs out of numbers, if each model of the
normal form is one of the formula, and the normal form has a model if the formula has one. -/
theorem answer_spec (config : Config) (random : ρ) (hlimit : config.timeLimit = none)
    (hsound : ∀ valuation, cnf.holds valuation = true → formula.value valuation = true)
    (hcomplete : ∀ valuation, formula.value valuation = true → ∃ extended, cnf.holds extended = true) :
    let result := onEmptyContext config random (answer formula.variableNames cnf)
    formula.DecidedBy result ∨
      ∃ fault, result = .error fault ∧ RunsOut config random formula.variableNames cnf fault := by
  have hanswer : Ends (answer formula.variableNames cnf) (empty config random)
      (fun result _ => formula.DecidedBy (.ok result)) Depleted := by
    unfold answer
    rw [ends_bind]
    refine ends_mono (load_spec (loaded_empty config random) formula.variableNames cnf) ?_
      fun _ _ => id
    rintro _ ctx ⟨⟨clauses, hadded⟩, hnames⟩
    rw [ends_bind]
    refine ends_mono (solve_spec hadded.loaded.standing) ?_
      fun _ _ ⟨_, _, _, _, hexhausted⟩ => hexhausted.depleted
    intro report ctx' hmoves
    rw [ends_bind, ends_get, ends_pure]
    cases report with
    | satisfiable =>
      -- every variable was given an atom before the clauses, and the answer values all atoms
      have hvalues : ∀ name ∈ formula.variableNames, ∃ value, ctx'.model.find? name = some value := by
        intro name hmem
        obtain ⟨atom, hname⟩ := hnames name hmem
        exact hadded.loaded.exists_value hmoves hname
      refine .satisfiable (fun name => mem_keys_modelOf hvalues) ?_
      rw [← hsound _ (hadded.holds_of_moves hmoves)]
      refine Propositional.Formula.evaluate_of_agrees fun name hmem => ?_
      have hname : name ∈ formula.variableNames := mem_ascending.2 hmem
      obtain ⟨value, hvalue⟩ := hvalues name hname
      rw [find?_modelOf hname hvalue, truths, hvalue]
      cases value <;> rfl
    | unsatisfiable =>
      have hrefuted : ctx'.state = .unsatisfiable := (hadded.loaded.standing.moves hmoves).inOrder
      refine .unsatisfiable fun model hmodel => ?_
      obtain ⟨extended, hholds⟩ := hcomplete _ (Propositional.Formula.value_of_evaluate hmodel)
      exact (hadded.loaded.standing.moves hmoves).sound.refuted hrefuted _
        (hadded.models (Propositional.Cnf.holds_iff.1 hholds))
    | unknown =>
      refine absurd hmoves (hadded.loaded.known_of_moves ?_)
      rw [hadded.retains.config]
      exact hlimit
  intro result
  have hresult : result = ((answer formula.variableNames cnf).run.run (empty config random)).1 := rfl
  rcases run_of_ends hanswer with ⟨answer, _, hrun, hdecided⟩ | ⟨fault, ctx, hrun, hdepleted⟩
  · rw [hresult, hrun]
    exact Or.inl hdecided
  · rw [hresult, hrun]
    exact Or.inr ⟨fault, rfl, ctx, hrun, hdepleted⟩

end Context

namespace Propositional.Formula

variable [RandomSource ρ] [LawfulRandomSource ρ]

/-- Without a time limit a propositional formula is decided, through its encoding and, if it is in
conjunctive normal form, directly. The only fault is that of a context in which no number is left
for an atom or for a clause. -/
theorem answers_decide (config : Config) (random : ρ) (hlimit : config.timeLimit = none) {text : String}
    {formula : Formula} (hparse : Formula.parse text = .ok formula) :
    (formula.DecidedBy (solveFormula config random text) ∨
      ∃ fault, solveFormula config random text = .error fault ∧
        Context.RunsOut config random formula.variableNames (formula.encode {}).1 fault) ∧
    ∀ cnf, formula.toCnf = .ok cnf →
      formula.DecidedBy (solveNormalForm config random text) ∨
        ∃ fault, solveNormalForm config random text = .error fault ∧
          Context.RunsOut config random formula.variableNames cnf fault := by
  refine ⟨?_, fun cnf hcnf => ?_⟩
  · unfold solveFormula
    rw [hparse]
    refine Context.answer_spec config random hlimit (fun _ => value_of_encode) fun _ hvalue => ?_
    obtain ⟨extended, _, hholds⟩ := exists_holds_encode {} hvalue
    exact ⟨extended, hholds⟩
  · unfold solveNormalForm
    simp only [hparse, orReadingFault, bind, Except.bind, hcnf]
    exact Context.answer_spec config random hlimit (fun _ => (holds_of_toCnf hcnf).1)
      fun valuation hvalue => ⟨valuation, (holds_of_toCnf hcnf).2 hvalue⟩

/-- A formula with a variable that constants make irrelevant, and that is named like one of those
that an encoding adds. -/
def shadowed : String := "((p|~q)&((z1|T)&(q|r)))"

theorem answers_decide_shadowed :
    ∃ formula cnf, Formula.parse shadowed = .ok formula ∧ formula.toCnf = .ok cnf ∧
      formula.DecidedBy (solveFormula {} (⟨0⟩ : SplitMix) shadowed) ∧
        formula.DecidedBy (solveNormalForm {} (⟨0⟩ : SplitMix) shadowed) := by
  have hparses : (Formula.parse shadowed).toOption.any
      fun formula => formula.toCnf.toOption.isSome := by decide +kernel
  obtain ⟨formula, hparse, hreads⟩ := exists_ok hparses
  cases hcnf : formula.toCnf with
  | error fault => exact absurd hreads (by simp [hcnf, Except.toOption])
  | ok cnf =>
    obtain ⟨hencoded, hdirect⟩ := answers_decide {} (⟨0⟩ : SplitMix) rfl hparse
    -- a formula this short does not exhaust the numbers
    have hanswered : (solveFormula {} (⟨0⟩ : SplitMix) shadowed).isOk ∧
        (solveNormalForm {} (⟨0⟩ : SplitMix) shadowed).isOk := by decide +kernel
    refine ⟨formula, cnf, hparse, hcnf, hencoded.resolve_right ?_, (hdirect cnf hcnf).resolve_right ?_⟩
    · rintro ⟨fault, hrun, -⟩
      rw [hrun] at hanswered
      exact absurd hanswered.1 (by simp [Except.isOk, Except.toBool])
    · rintro ⟨fault, hrun, -⟩
      rw [hrun] at hanswered
      exact absurd hanswered.2 (by simp [Except.isOk, Except.toBool])

end Propositional.Formula

end Satisfiability
