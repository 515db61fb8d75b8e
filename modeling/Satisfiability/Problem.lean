import Satisfiability.Context.ClauseFile
import Satisfiability.Context.Solve
import Satisfiability.Coordinator
import Satisfiability.FirstOrder.Parser
import Satisfiability.FirstOrder.Skeleton
import Satisfiability.Linear.Formula
import Satisfiability.Propositional.Parser
import Satisfiability.Propositional.Tseitin

/-!
# Problems as text

A problem is a formula or a clause file. It is read, brought into the form that the search or the
linear engine works on, and answered. Models speak of the problem as it was given: of the variables
of a propositional formula without those that the encoding adds, of the atoms of a clause file, and
of the outermost equalities, relations and quantified subformulas of a first-order formula.
-/

namespace Satisfiability

open Search (RandomSource)
open Propositional (Cnf NamedLiteral)

inductive Answer where
  | satisfiable (model : NameMap Bool)
  | unsatisfiable
  | unknown
  deriving Repr, DecidableEq

namespace Answer

def word : Answer → String
  | satisfiable _ => "SAT"
  | unsatisfiable => "UNSAT"
  | unknown => "UNKNOWN"

def report : Answer → Report
  | satisfiable _ => .satisfiable
  | unsatisfiable => .unsatisfiable
  | unknown => .unknown

def model? : Answer → Option (NameMap Bool)
  | satisfiable model => some model
  | _ => none

def ofReport (report : Report) (model : NameMap Bool) : Answer :=
  match report with
  | .satisfiable => satisfiable model
  | .unsatisfiable => unsatisfiable
  | .unknown => unknown

end Answer

variable {ρ : Type}

namespace Context

def addNamedClause (clause : List NamedLiteral) : Step (Context ρ) Unit := do
  let literals ← clause.mapM fun named => do
    let atom ← atomNamed named.name
    return (⟨atom, named.positive⟩ : Literal)
  discard (addClause literals)

def addCnf : Cnf → Step (Context ρ) Unit
  | .always => return ()
  | .never => discard (addClause [])
  | .clauses clauses => clauses.forM addNamedClause

/-- Adds atoms with some names, in this order, and the clauses of a normal form behind them. -/
def load (names : List String) (cnf : Cnf) : Step (Context ρ) Unit := do
  names.forM fun name => discard (atomNamed name)
  addCnf cnf

def modelOf (ctx : Context ρ) (names : List String) : NameMap Bool :=
  let model := ctx.model
  KeyMap.ofList <| names.filterMap fun name => (model.find? name).map fun value => (name, value)

def answer [RandomSource ρ] (names : List String) (cnf : Cnf) : Step (Context ρ) Answer := do
  load names cnf
  let report ← solve
  return .ofReport report ((← get).modelOf names)

end Context

def onEmptyContext {α : Type} (config : Config) (random : ρ) (operation : Step (Context ρ) α) :
    Except Fault α :=
  (operation.run.run { config, random }).1

def orReadingFault {α : Type} : Except Text.ReadingFault α → Except Fault α
  | .ok a => .ok a
  | .error cause => .error (.reading cause)

variable [RandomSource ρ]

/-- The answer to a propositional formula, through an encoding with new variables. -/
def solveFormula (config : Config) (random : ρ) (text : String) : Except Fault Answer := do
  let formula ← orReadingFault (Propositional.Formula.parse text)
  onEmptyContext config random (Context.answer formula.variableNames (formula.encode {}).1)

def solveNormalForm (config : Config) (random : ρ) (text : String) : Except Fault Answer := do
  let formula ← orReadingFault (Propositional.Formula.parse text)
  let cnf ← orReadingFault formula.toCnf
  onEmptyContext config random (Context.answer formula.variableNames cnf)

def solveClauseFile (config : Config) (random : ρ) (bytes : ByteArray) : Except Fault Answer :=
  onEmptyContext config random do
    discard (Context.readClauseFile bytes)
    let report ← Context.solve
    return .ofReport report (← get).model

/-- Searches for values of the atoms of a skeleton that are possible for equality. -/
def Coordinator.answer (atoms : NameMap FirstOrder.Formula) : Step (Coordinator ρ) Answer := do
  let report ← Coordinator.solve
  let values := (← get).context.model
  return .ofReport report <| KeyMap.ofList <| atoms.toList.filterMap fun (name, formula) =>
    (values.find? name).map fun value => (FirstOrder.Formula.text formula, value)

/-- The answer to a first-order formula, relative to equality with functions and relations of which
nothing is known. Quantified subformulas are taken for propositional variables. -/
def solveModuloEquality (config : Config) (random : ρ) (text : String) : Except Fault Answer := do
  let formula ← orReadingFault (FirstOrder.Formula.parse text)
  -- the new variables of the encoding are drawn behind those of the skeleton
  let (skeleton, replaced, names) := formula.skeleton {}
  let atoms := KeyMap.ofList (replaced.map Prod.swap)
  let build : Step (Context ρ) (List (Atom × FirstOrder.Formula) × Context ρ) := do
    Context.load atoms.keys (skeleton.encode names).1
    let numbered ← atoms.toList.mapM fun (name, formula) => do
      return (← Context.atomNamed name, formula)
    return (numbered, ← get)
  let (numbered, context) ← onEmptyContext config random build
  let coordinator : Coordinator ρ := { context, theory := Equality.Solver.ofAtoms numbered }
  ((Coordinator.answer atoms).run.run coordinator).1

/-- Values for the variables of a formula of linear arithmetic that make it true, if there are
any. -/
def solveArithmetic (config : LinearConfig) (text : String) :
    Except Fault (Option (NameMap Float)) := do
  let constraints ← orReadingFault (Linear.NormalForm.parse text)
  constraints.solve (Linear.Options.ofConfig config)

end Satisfiability
