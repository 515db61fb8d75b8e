import Mathlib.Data.String.Basic
import Satisfiability.Problem
import Satisfiability.Proofs.Context.Loading
import Satisfiability.Proofs.Coordinator.Levels
import Satisfiability.Proofs.Coordinator.Rounds
import Satisfiability.Proofs.FirstOrder.Reading
import Satisfiability.Proofs.FirstOrder.Skeleton

/-!
# Answers modulo equality

A model of a first-order formula speaks of exactly its outermost equalities, relations and
quantified subformulas, the formula is true by the values it gives them, and these are the truth
values of the equalities and relations in one structure (`satisfiable_modulo_equality`). The model
lists values by text, which is enough because no two of the parts have the same text.
-/

namespace Satisfiability

open Search Step
open Context (Loaded Numbers)
open Coordinator (Settled)
open Equality (NodeId Solver)
open Satisfiability.FirstOrder (Formula Structure)
open Propositional (Cnf)

variable {ρ : Type} {start : Context ρ} {atoms : NameMap Formula} {cnf : Cnf}
  {numbered : List (Atom × Formula)} {c : Coordinator ρ} {formula part : Formula} {name : String}
  {names : FreshNames}

/-! ## The problem -/

/-- Adds the atoms and clauses of a skeleton, and looks up the atom of each part replaced in it. -/
def Context.addSkeleton (atoms : NameMap Formula) (cnf : Cnf) :
    Step (Context ρ) (List (Atom × Formula) × Context ρ) := do
  Context.load atoms.keys cnf
  let numbered ← atoms.toList.mapM fun item => do return (← Context.atomNamed item.1, item.2)
  return (numbered, ← get)

/-- The context holds the clauses of a skeleton, and each part replaced in it has its atom. -/
structure Prepared (atoms : NameMap Formula) (cnf : Cnf) (numbered : List (Atom × Formula))
    (start : Context ρ) (clauses : List Clause) : Prop extends Loaded start clauses where
  numbers : ∀ clause ∈ cnf.named, ∃ literals ∈ clauses, List.Forall₂ start.Numbers clause literals
  numbered : List.Forall₂ (fun (item : String × Formula) result =>
    ∃ atom, start.atoms.name? atom = some item.1 ∧ result = (atom, item.2)) atoms.toList numbered

theorem addSkeleton_spec (config : Config) (random : ρ) (atoms : NameMap Formula) (cnf : Cnf) :
    Ends (Context.addSkeleton atoms cnf) (Context.empty config random)
      (fun result _ => ∃ clauses, Prepared atoms cnf result.1 result.2 clauses) Context.Depleted := by
  unfold Context.addSkeleton
  rw [ends_bind]
  refine ends_mono (Context.load_spec (Context.loaded_empty config random) atoms.keys cnf) ?_
    fun _ _ => id
  rintro _ ctx₁ ⟨⟨clauses, h₁, -, hnumbers⟩, -⟩
  rw [ends_bind]
  refine ends_mono (Context.atomsNamed_spec Prod.fst (fun item atom => (atom, item.2))
    atoms.toList h₁) ?_ fun _ _ => id
  rintro numbered ctx₂ ⟨h₂, hretains, hnumbered⟩
  rw [ends_bind, ends_get, ends_pure]
  refine ⟨clauses, h₂, fun clause hmem => ?_, hnumbered⟩
  obtain ⟨literals, hliterals, hclause⟩ := Context.exists_of_mem_right hnumbers.flip hmem
  exact ⟨literals, hliterals, hclause.imp fun _ _ hliteral => hliteral.keep hretains⟩

namespace Prepared

variable {clauses : List Clause}

theorem lt_count (h : Prepared atoms cnf numbered start clauses) :
    ∀ pair ∈ numbered, pair.1 < start.atoms.count := by
  intro pair hmem
  obtain ⟨_, _, atom, hname, rfl⟩ := Context.exists_of_mem_right h.numbered hmem
  exact Context.lt_count_of_name? hname

theorem nodup (h : Prepared atoms cnf numbered start clauses) (hkeys : atoms.keys.Nodup) :
    (numbered.map Prod.fst).Nodup := by
  have hnames : (numbered.map Prod.fst).map start.atoms.name? = atoms.keys.map some := by
    have hnumbered := h.numbered
    clear h
    rw [KeyMap.keys]
    generalize atoms.toList = items at hnumbered
    induction hnumbered with
    | nil => rfl
    | cons hfirst _ ih =>
      obtain ⟨atom, hname, rfl⟩ := hfirst
      rw [List.map_cons, List.map_cons, List.map_cons, List.map_cons, ih, hname]
  refine List.Nodup.of_map start.atoms.name? ?_
  rw [hnames]
  exact hkeys.map (Option.some_injective _)

theorem mem_numbered (h : Prepared atoms cnf numbered start clauses)
    (hmem : (name, part) ∈ atoms.toList) :
    ∃ atom, (atom, part) ∈ numbered ∧ start.atoms.name? atom = some name := by
  obtain ⟨_, hpair, atom, hname, rfl⟩ := Context.exists_of_mem_right h.numbered.flip hmem
  exact ⟨atom, hpair, hname⟩

theorem allHold (h : Prepared atoms cnf numbered start clauses)
    (hstate : start.state ≠ .unsatisfiable) (hsettled : c.Settled start numbered) :
    Propositional.AllHold c.context.truths cnf.named := by
  intro clause hmem
  obtain ⟨literals, hliterals, hnumbers⟩ := h.numbers clause hmem
  refine Context.holds_of_satisfies (hsettled.extension.distinct h.distinct)
    (hnumbers.imp fun _ _ hliteral => hliteral.keep hsettled.extension.retains) ?_
  refine hsettled.satisfies (fun literal hliteral => ?_) (h.kept hstate literals hliterals)
  obtain ⟨_, _, hnumber⟩ := Context.exists_of_mem_right hnumbers hliteral
  exact Context.lt_count_of_name? hnumber.name

theorem hasValue (h : Prepared atoms cnf numbered start clauses) (hsettled : c.Settled start numbered)
    (hmem : (name, part) ∈ atoms.toList) : ∃ atom value, (atom, part) ∈ numbered ∧
      c.context.valuation atom = some value ∧ c.context.model.find? name = some value := by
  obtain ⟨atom, hpair, hname⟩ := h.mem_numbered hmem
  obtain ⟨value, hvalue⟩ := hsettled.hasValue (h.lt_count _ hpair)
  exact ⟨atom, value, hpair, hvalue, (hsettled.extension.distinct h.distinct).find?_model.2
    ⟨atom, hsettled.extension.retains.name _ _ hname, hvalue⟩⟩

end Prepared

/-! ## The answer -/

def modelOf (values : NameMap Bool) (atoms : NameMap Formula) : NameMap Bool :=
  KeyMap.ofList <| atoms.toList.filterMap fun item =>
    (values.find? item.1).map fun value => (item.2.text, value)

theorem mem_modelOf {values : NameMap Bool} {key : String} {value : Bool} :
    (key, value) ∈ (atoms.toList.filterMap fun item =>
      (values.find? item.1).map fun value => (item.2.text, value)) ↔
      ∃ name part, (name, part) ∈ atoms.toList ∧ values.find? name = some value ∧ part.text = key := by
  rw [List.mem_filterMap]
  constructor
  · rintro ⟨⟨name, part⟩, hmem, hvalue⟩
    obtain ⟨_, hfind, heq⟩ := Option.map_eq_some_iff.1 hvalue
    cases heq
    exact ⟨name, part, hmem, hfind, rfl⟩
  · rintro ⟨name, part, hmem, hfind, rfl⟩
    exact ⟨(name, part), hmem, by rw [hfind]; rfl⟩

/-- The parts of a formula, each with the variable that replaces it and no other, where no two parts
have one text. -/
structure Listed (formula : Formula) (atoms : NameMap Formula) : Prop where
  mem_iff : ∀ part, part ∈ formula.outermost ↔ ∃ name, (name, part) ∈ atoms.toList
  name : ∀ part name name', (name, part) ∈ atoms.toList → (name', part) ∈ atoms.toList → name = name'
  text : ∀ part ∈ formula.outermost, ∀ part' ∈ formula.outermost, part.text = part'.text → part = part'

theorem listed_of_parse {text : String} (hparse : Formula.parse text = .ok formula)
    {skeleton : Propositional.Formula} {replaced : List (Formula × String)}
    (hskeleton : formula.IsSkeleton skeleton replaced) :
    Listed formula (KeyMap.ofList (replaced.map Prod.swap)) ∧
      ∀ name part, (name, part) ∈ (KeyMap.ofList (replaced.map Prod.swap)).toList ↔
        (part, name) ∈ replaced := by
  have hnames : ((replaced.map Prod.swap).map Prod.fst).Nodup := by
    rw [List.map_map]
    exact hskeleton.names
  have hmem : ∀ name part, (name, part) ∈ (KeyMap.ofList (replaced.map Prod.swap)).toList ↔
      (part, name) ∈ replaced := by
    intro name part
    rw [(KeyMap.ordered_ofList _).mem_toList, KeyMap.find?_ofList_eq_some hnames, List.mem_map]
    constructor
    · rintro ⟨⟨_, _⟩, hpair, heq⟩
      cases heq
      exact hpair
    · exact fun hpair => ⟨_, hpair, rfl⟩
  -- parts with the same text are equal since they were read from a text
  have hnamed := (Formula.parse_spec hparse).1.outermost
  refine ⟨⟨fun part => ?_, fun part name name' h h' => ?_, fun part hpart part' hpart' heq => ?_⟩, hmem⟩
  · rw [← hskeleton.mem_iff, List.mem_map]
    constructor
    · rintro ⟨pair, hpair, rfl⟩
      exact ⟨pair.2, (hmem _ _).2 hpair⟩
    · rintro ⟨name, hpair⟩
      exact ⟨_, (hmem _ _).1 hpair, rfl⟩
  · rw [hmem] at h h'
    exact Option.some.inj ((KeyMap.get?_of_mem hskeleton.formulas h).symm.trans
      (KeyMap.get?_of_mem hskeleton.formulas h'))
  · exact Formula.eq_of_text_eq (hnamed part hpart) (hnamed part' hpart') heq

theorem Listed.find?_modelOf (h : Listed formula atoms) {values : NameMap Bool} {value : Bool}
    (hmem : (name, part) ∈ atoms.toList) (hvalue : values.find? name = some value) :
    (modelOf values atoms).find? part.text = some value := by
  refine KeyMap.find?_ofList_of_mem (fun other hother => ?_) (mem_modelOf.2 ⟨name, part, hmem, hvalue, rfl⟩)
  obtain ⟨name', part', hmem', hvalue', htext⟩ := mem_modelOf.1 hother
  have heq := h.text part' ((h.mem_iff _).2 ⟨_, hmem'⟩) part ((h.mem_iff _).2 ⟨_, hmem⟩) htext
  subst heq
  rw [h.name _ _ _ hmem hmem'] at hvalue
  exact Option.some.inj (hvalue'.symm.trans hvalue)

/-- A model of a formula modulo equality: it speaks of exactly the outermost equalities, relations
and quantified subformulas, the formula is true by what it says, and there is a structure in which
the equalities and relations have the values that it gives them. -/
structure IsModelOf (model : NameMap Bool) (formula : Formula) : Prop where
  keys : ∀ key, key ∈ model.keys ↔ ∃ part ∈ formula.outermost, part.text = key
  holds : formula.Holds fun part => model.find? part.text = some true
  possible : ∃ M : Structure NodeId, ∀ quantified, ∀ part ∈ formula.outermost, part.isAtomic = true →
    ∃ value, model.find? part.text = some value ∧ (M.truth quantified part ↔ value = true)

theorem isModelOf_of_settled {skeleton : Propositional.Formula} {replaced : List (Formula × String)}
    {clauses : List Clause} {text : String} (hparse : Formula.parse text = .ok formula)
    (hskeleton : formula.IsSkeleton skeleton replaced)
    (hprepared : Prepared (KeyMap.ofList (replaced.map Prod.swap)) (skeleton.encode names).1 numbered
      start clauses) (hstate : start.state ≠ .unsatisfiable) (hsettled : c.Settled start numbered) :
    IsModelOf (modelOf c.context.model (KeyMap.ofList (replaced.map Prod.swap))) formula := by
  obtain ⟨hlisted, hmem⟩ := listed_of_parse hparse hskeleton
  refine ⟨fun key => ?_, ?_, c.theory.classes.interpretation, fun quantified part hpart hatomic => ?_⟩
  · rw [KeyMap.mem_keys_iff]
    -- the keys of the model are the texts of the parts
    constructor
    · rintro ⟨value, hfind⟩
      obtain ⟨name, part, hpair, -, htext⟩ := mem_modelOf.1 (KeyMap.mem_of_find?_ofList hfind)
      exact ⟨part, (hlisted.mem_iff part).2 ⟨name, hpair⟩, htext⟩
    · rintro ⟨part, hpart, rfl⟩
      obtain ⟨name, hpair⟩ := (hlisted.mem_iff part).1 hpart
      obtain ⟨_, value, -, -, hvalue⟩ := hprepared.hasValue hsettled hpair
      exact ⟨value, hlisted.find?_modelOf hpair hvalue⟩
  · -- the variables of the skeleton have the values of the parts
    refine (hskeleton.value c.context.truths _ fun pair hpair => ?_).1
      (Propositional.Formula.value_of_encode
        (Propositional.Cnf.holds_iff.2 (hprepared.allHold hstate hsettled)))
    have hpair' := (hmem _ _).2 hpair
    obtain ⟨_, value, -, -, hvalue⟩ := hprepared.hasValue hsettled hpair'
    rw [hlisted.find?_modelOf hpair' hvalue, Context.truths, hvalue]
    simp
  · -- an atomic part has the value of its atom, which is its truth value in the classes
    obtain ⟨name, hpair⟩ := (hlisted.mem_iff part).1 hpart
    obtain ⟨atom, value, hnumbered, hvaluation, hvalue⟩ := hprepared.hasValue hsettled hpair
    refine ⟨value, hlisted.find?_modelOf hpair hvalue, ?_⟩
    rw [hsettled.truth_iff (hprepared.nodup (KeyMap.ordered_ofList _).nodup_keys) quantified hnumbered
      hatomic, hvaluation, Option.some.injEq]

variable [RandomSource ρ]

theorem solveModuloEquality_eq (config : Config) (random : ρ) {text : String}
    (hparse : Formula.parse text = .ok formula) {skeleton : Propositional.Formula}
    {replaced : List (Formula × String)} (hskeleton : formula.skeleton {} = (skeleton, replaced, names)) :
    solveModuloEquality config random text =
      onEmptyContext config random (Context.addSkeleton (KeyMap.ofList (replaced.map Prod.swap))
        (skeleton.encode names).1) >>= fun result =>
          ((Coordinator.answer (KeyMap.ofList (replaced.map Prod.swap))).run.run
            { context := result.2, theory := Solver.ofAtoms result.1 }).1 := by
  unfold solveModuloEquality
  rw [hparse]
  simp only [orReadingFault, bind, Except.bind, hskeleton]
  rfl

variable [LawfulRandomSource ρ]

theorem answer_spec {clauses : List Clause} (h : Prepared atoms cnf numbered start clauses) :
    Ensures (Coordinator.answer atoms) { context := start, theory := Solver.ofAtoms numbered }
      (fun answer c' => ∀ model, answer = .satisfiable model →
        start.state ≠ .unsatisfiable ∧ c'.Settled start numbered ∧
          model = modelOf c'.context.model atoms) anyFault := by
  unfold Coordinator.answer
  rw [ensures_bind]
  refine ensures_mono (Coordinator.solve_spec h.toBuilt h.lt_count) ?_ fun _ => id
  intro report c' hsettled
  rw [ensures_bind, ensures_get, ensures_pure]
  intro model hmodel
  cases report with
  | satisfiable =>
    obtain ⟨hstate, hsettled⟩ := hsettled rfl
    exact ⟨hstate, hsettled, (Answer.satisfiable.inj hmodel).symm⟩
  | unsatisfiable => exact absurd hmodel (by simp [Answer.ofReport])
  | unknown => exact absurd hmodel (by simp [Answer.ofReport])

/-- An answer with a model is right. -/
theorem satisfiable_modulo_equality (config : Config) (random : ρ) {text : String}
    (hparse : Formula.parse text = .ok formula) {model : NameMap Bool}
    (hanswer : solveModuloEquality config random text = .ok (.satisfiable model)) :
    IsModelOf model formula := by
  rcases hskeleton : formula.skeleton {} with ⟨skeleton, replaced, names⟩
  rw [solveModuloEquality_eq config random hparse hskeleton] at hanswer
  have hadds := addSkeleton_spec config random (KeyMap.ofList (replaced.map Prod.swap))
    (skeleton.encode names).1
  rcases run_of_ends hadds with ⟨⟨numbered, start⟩, _, hrun, clauses, hprepared⟩ | ⟨fault, _, hrun, _⟩
  · have hbuild : onEmptyContext config random (Context.addSkeleton
        (KeyMap.ofList (replaced.map Prod.swap)) (skeleton.encode names).1) = .ok (numbered, start) :=
      congrArg Prod.fst hrun
    rw [hbuild] at hanswer
    obtain ⟨hstate, hsettled, rfl⟩ := ensures_ok (answer_spec hprepared)
      (Prod.ext hanswer rfl) model rfl
    exact isModelOf_of_settled hparse (Formula.skeleton_spec hskeleton) hprepared hstate hsettled
  · -- a problem that is too large has no answer
    have hbuild : onEmptyContext config random (Context.addSkeleton
        (KeyMap.ofList (replaced.map Prod.swap)) (skeleton.encode names).1) = .error fault :=
      congrArg Prod.fst hrun
    rw [hbuild] at hanswer
    cases hanswer

def separated : String := "((x=y|Ax[R(x)])&(R(f(x))&~R(f(y))))"

set_option maxRecDepth 100000 in
theorem satisfiable_modulo_equality_separated :
    ∃ formula model, Formula.parse separated = .ok formula ∧
      solveModuloEquality {} (⟨0⟩ : SplitMix) separated = .ok (.satisfiable model) ∧
        IsModelOf model formula := by
  have hparses : (Formula.parse separated).toOption.any fun _ => true := by decide +kernel
  have hanswers : (solveModuloEquality {} (⟨0⟩ : SplitMix) separated).toOption.any
      fun answer => answer.model?.isSome := by decide +kernel
  obtain ⟨formula, hparse, -⟩ := exists_ok hparses
  obtain ⟨answer, hrun, hmodel⟩ := exists_ok hanswers
  cases answer with
  | satisfiable model =>
    exact ⟨formula, model, hparse, hrun, satisfiable_modulo_equality {} (⟨0⟩ : SplitMix) hparse hrun⟩
  | unsatisfiable => exact absurd hmodel (by simp [Answer.model?])
  | unknown => exact absurd hmodel (by simp [Answer.model?])

end Satisfiability
