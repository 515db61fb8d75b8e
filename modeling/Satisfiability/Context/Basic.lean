import Satisfiability.Config
import Satisfiability.Fault
import Satisfiability.KeyMap
import Satisfiability.Search.AtomTable
import Satisfiability.Search.ClauseStore
import Satisfiability.Search.ImplicationGraph
import Satisfiability.Search.Random
import Satisfiability.Search.Trail
import Satisfiability.Search.WatchIndex

/-!
# Contexts

A context holds a set of clauses together with all that a search for a satisfying valuation keeps:
values, watches, the trail and the implication graph. It is built clause by clause and then solved.
-/

namespace Satisfiability

open Search

inductive SearchState where
  | input
  | solving
  | satisfiable
  | unsatisfiable
  deriving Repr, DecidableEq

inductive Report where
  | satisfiable
  | unsatisfiable
  | unknown
  deriving Repr, DecidableEq

namespace SearchState

def word : SearchState → String
  | input => "Input"
  | solving => "Solving"
  | satisfiable => "Satisfiable"
  | unsatisfiable => "Unsatisfiable"

def report : SearchState → Report
  | satisfiable => .satisfiable
  | unsatisfiable => .unsatisfiable
  | _ => .unknown

end SearchState

def Report.word : Report → String
  | satisfiable => "Satisfiable"
  | unsatisfiable => "Unsatisfiable"
  | unknown => "Unknown"

structure Counters where
  conflicts : Nat := 0
  decisions : Nat := 0
  iterations : Nat := 0
  lemmas : Nat := 0
  deriving Repr, DecidableEq

/-- A set of clauses and the search over it. -/
structure Context (ρ : Type) where
  config : Config := {}
  counters : Counters := {}
  atoms : AtomTable Float := {}
  clauses : ClauseStore := {}
  watches : WatchIndex := {}
  trail : Trail := {}
  graph : ImplicationGraph := {}
  state : SearchState := .input
  random : ρ

namespace Context

variable {ρ : Type}

def valuation (ctx : Context ρ) : Valuation := ctx.atoms.valuation

def report (ctx : Context ρ) : Report := ctx.state.report

/-- Whether the time allowed is over. No clock is read: only a limit of zero is ever reached. -/
def timeIsUp (ctx : Context ρ) : Bool := ctx.config.timeLimit == some 0

/-- The values of the atoms by name. Of atoms with one name the newest counts. -/
def model (ctx : Context ρ) : NameMap Bool :=
  KeyMap.ofList <| ctx.atoms.entries.toList.filterMap fun entry =>
    entry.placement.map fun placement => (entry.name, placement.value)

def satisfies (ctx : Context ρ) (clauses : List Clause) : Bool :=
  clauses.all ctx.valuation.satisfies

/-- A bound on the rounds of any loop of a search over `atoms` atoms. A search that goes on gives
ever greater vectors of level sizes, in the lexicographic order from level zero up; there are at
most as many levels and as many literals on a level as atoms, and so fewer such vectors than
this. -/
def roundBudget (atoms : Nat) : Nat := Nat.pow (atoms + 2) (atoms + 2)

def entry {σ α : Type} : Option α → Step σ α
  | some a => pure a
  | none => throw .outOfRange

def record (literal : Literal) (reason : Option ClauseKey) : Step (Context ρ) Unit := do
  let ctx ← get
  let clauseAtoms ← match reason with
    | some (.stored source index) =>
      match ctx.clauses.get? (.stored source index) with
      | some clause => pure clause.literals.atoms
      | none => throw (.clauses .missing)
    | _ => pure []
  let atoms ← entry (ctx.atoms.setValue? literal ctx.trail.level ctx.trail.size)
  set { ctx with
    atoms
    trail := ctx.trail.push literal
    graph := ctx.graph.note literal.atom reason clauseAtoms }

def clear (literal : Literal) : Step (Context ρ) Unit := do
  let ctx ← get
  let atoms ← entry (ctx.atoms.dropValue? literal.atom)
  set { ctx with atoms, graph := ctx.graph.reset literal.atom }

def bump (atom : Atom) : Step (Context ρ) Unit := do
  let ctx ← get
  let atoms ← entry (ctx.atoms.bump? ctx.config.activityBump.value atom)
  set { ctx with atoms }

def openLevel : Step (Context ρ) Unit :=
  modify fun ctx => { ctx with trail := ctx.trail.openLevel }

end Context

end Satisfiability
