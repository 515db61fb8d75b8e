import Satisfiability.FreshNames
import Satisfiability.Propositional.Cnf

/-!
# The clauses of any formula

The encoding after Tseitin: truth values are folded away, each binary subformula gets a variable of
its own, equal subformulas the same one, and for each of them at most four clauses say that the
variable has the value of the subformula. One last clause says that the whole formula is true.
-/

namespace Satisfiability.Propositional

def definition (r : NamedLiteral) (connective : Connective) (a b : NamedLiteral) :
    List NamedClause :=
  match connective with
  | .and => [[-r, a], [-r, b], [r, -a, -b]]
  | .or => [[-r, a, b], [r, -a], [r, -b]]
  | .implies => [[-r, -a, b], [r, a], [r, -b]]
  | .iff => [[-r, -a, b], [-r, a, -b], [r, a, b], [r, -a, -b]]
  | .xor => [[-r, a, b], [-r, -a, -b], [r, -a, b], [r, a, -b]]
  | .nand => [[r, a], [r, b], [-r, -a, -b]]
  | .nor => [[-r, -a], [-r, -b], [r, a, b]]

/-- What an encoding has produced: the source of names, the literal of each subformula met, and the
clauses. -/
structure Encoder where
  names : FreshNames
  representatives : List (Formula × NamedLiteral) := []
  clauses : List NamedClause := []

namespace Encoder

def represent (encoder : Encoder) (formula : Formula) : NamedLiteral × Encoder :=
  let (name, names) := encoder.names.fresh
  let r : NamedLiteral := ⟨name, true⟩
  (r, { encoder with names, representatives := (formula, r) :: encoder.representatives })

def add (encoder : Encoder) (clauses : List NamedClause) : Encoder :=
  { encoder with clauses := encoder.clauses ++ clauses }

/-- The literal that stands for a formula, with the clauses that define it. -/
def literalOf (encoder : Encoder) : Formula → NamedLiteral × Encoder
  | .truth value =>
    let (r, encoder) := encoder.represent (.truth value)
    (r, encoder.add [[if value then r else -r]])
  | .var name => (⟨name, true⟩, encoder)
  | .not inner =>
    let (a, encoder) := encoder.literalOf inner
    (-a, encoder)
  | .binary connective first second =>
    match encoder.representatives.lookup (.binary connective first second) with
    -- equal subformulas share their literal and its clauses
    | some r => (r, encoder)
    | none =>
      let (a, encoder) := encoder.literalOf first
      let (b, encoder) := encoder.literalOf second
      let (r, encoder) := encoder.represent (.binary connective first second)
      (r, encoder.add (definition r connective a b))

end Encoder

/-- A normal form that has a model over the variables of the formula and new ones exactly if the
formula has a model. The new names are drawn from `names`, which then avoids the variables of the
folded formula as well. -/
def Formula.encode (formula : Formula) (names : FreshNames) : Cnf × FreshNames :=
  match formula.foldConstants with
  | .truth true => (.always, names)
  | .truth false => (.never, names)
  | folded =>
    -- no new name is one of the variables that are left
    let (root, encoder) := Encoder.literalOf { names := names.avoid folded.variableNames } folded
    (Cnf.ofClauses (encoder.clauses ++ [[root]]), encoder.names)

end Satisfiability.Propositional
