import Satisfiability.Fault
import Satisfiability.KeyMap
import Satisfiability.Clause
import Satisfiability.Equality.TermClasses
import Satisfiability.FirstOrder.Formula
import Satisfiability.Search.Trail

/-!
# The theory of equality

An atom of the theory is an equality or a relation; a relation is read as an equation with a
reserved term for truth. The equations asserted true are merged in congruence classes. An atom
follows from them if its two sides are in one class, and the assertions contradict each other if
such an atom is asserted false.
-/

namespace Satisfiability.Equality

open Search (Trail)

def truthSymbol : String := "⊤"

inductive Verdict where
  | consistent
  | entailed (literals : List Literal)
  /-- This literal is asserted, and its negation follows. -/
  | conflict (literal : Literal)
  deriving Repr, DecidableEq

structure Solver where
  pristine : TermClasses
  classes : TermClasses
  sides : KeyMap Atom (NodeId × NodeId)
  assertions : Trail := {}

namespace Solver

/-- The two sides of an atom that is an equality or a relation; other formulas have none. -/
def internAtom (classes : TermClasses) :
    FirstOrder.Formula → Option ((NodeId × NodeId) × TermClasses)
  | .equality left right =>
    let (left, classes) := classes.intern left
    let (right, classes) := classes.intern right
    some ((left, right), classes)
  | .relation name arguments =>
    let (ids, classes) := classes.internAll arguments
    let (relation, classes) := classes.internNode name ids
    let (truth, classes) := classes.internNode truthSymbol []
    some ((relation, truth), classes)
  | _ => none

def addAtom (state : TermClasses × KeyMap Atom (NodeId × NodeId))
    (atom : Atom × FirstOrder.Formula) : TermClasses × KeyMap Atom (NodeId × NodeId) :=
  match internAtom state.1 atom.2 with
  | some (sides, classes) => (classes, state.2.insert atom.1 sides)
  | none => state

/-- The theory over atoms with their formulas. Formulas that are neither equalities nor relations
are not interpreted. -/
def ofAtoms (atoms : List (Atom × FirstOrder.Formula)) : Solver :=
  let (classes, sides) := atoms.foldl addAtom ({}, .empty)
  { pristine := classes, classes, sides }

def hasAtom (solver : Solver) (atom : Atom) : Bool := (solver.sides.find? atom).isSome

def value? (solver : Solver) (atom : Atom) : Option Bool :=
  (solver.assertions.literals.find? (·.atom == atom)).map Literal.positive

def level (solver : Solver) : Nat := solver.assertions.level

def representativeOf? (solver : Solver) (t : FirstOrder.Term) : Option NodeId :=
  (solver.classes.idOf? t).map solver.classes.representative

/-- Asserts a literal. An atom cannot be asserted with both values. -/
def assert (solver : Solver) (literal : Literal) : Except TheoryFault Solver :=
  match solver.sides.find? literal.atom with
  | none => .error (.unknownAtom literal.atom)
  | some (left, right) =>
    match solver.value? literal.atom with
    | some value =>
      if value = literal.positive then .ok solver else .error (.reasserted literal.atom)
    | none =>
      let assertions := solver.assertions.push literal
      if literal.positive then
        .ok { solver with assertions, classes := (solver.classes.merge left right).2 }
      else .ok { solver with assertions }

def equalAtoms (solver : Solver) : List Atom :=
  (solver.sides.toList.filter fun (_, left, right) => solver.classes.same left right).map Prod.fst

def propagate (solver : Solver) : Verdict :=
  let atoms := solver.equalAtoms
  match atoms.find? fun atom => solver.value? atom == some false with
  | some atom => .conflict ⟨atom, false⟩
  | none =>
    match atoms.filter fun atom => (solver.value? atom).isNone with
    | [] => .consistent
    | open_ => .entailed (open_.map fun atom => ⟨atom, true⟩)

def mergeAtom (solver : Solver) (classes : TermClasses) (atom : Atom) : TermClasses :=
  match solver.sides.find? atom with
  | none => classes
  | some (left, right) => (classes.merge left right).2

/-- Whether two nodes are equal once the equations of some atoms are merged from scratch. -/
def entails (solver : Solver) (atoms : List Atom) (sides : NodeId × NodeId) : Bool :=
  (atoms.foldl solver.mergeAtom solver.pristine).same sides.1 sides.2

/-- Drops from a list of atoms, from left to right, those without which the atoms kept and the rest
entail an equation just as well. -/
def minimise (solver : Solver) (sides : NodeId × NodeId) (kept : List Atom) : List Atom → List Atom
  | [] => kept
  | atom :: rest =>
    if solver.entails (kept ++ rest) sides then solver.minimise sides kept rest
    else solver.minimise sides (kept ++ [atom]) rest

/-- The clause that says why an atom follows: the negations of equations asserted true, none of them
superfluous, and the atom. -/
def explain (solver : Solver) (atom : Atom) : Except TheoryFault Clause :=
  match solver.sides.find? atom with
  | none => .error (.unknownAtom atom)
  | some sides =>
    let asserted := (solver.assertions.literals.filter fun literal =>
      literal.positive && literal.atom != atom).map Literal.atom
    let reasons :=
      if solver.entails asserted sides then solver.minimise sides [] asserted else asserted
    .ok (reasons.map (fun reason => ⟨reason, false⟩) ++ [⟨atom, true⟩])

def openLevel (solver : Solver) : Solver :=
  { solver with
    assertions := solver.assertions.openLevel
    classes := solver.classes.checkpoint }

def closeLevel (solver : Solver) : Solver :=
  { solver with
    assertions := solver.assertions.closeLevel.2
    classes := (solver.classes.restore?).getD solver.classes }

def closeLevels (solver : Solver) : (count : Nat) → Solver
  | 0 => solver
  | count + 1 => solver.closeLevel.closeLevels count

def backtrack (solver : Solver) (level : Nat) : Except TheoryFault Solver :=
  if solver.level < level then .error .invalidLevel
  else .ok (solver.closeLevels (solver.level - level))

end Solver

end Satisfiability.Equality
