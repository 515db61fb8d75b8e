import Satisfiability.Ascending

/-!
# Propositional formulas

Formulas over named variables and the two truth values, with negation and seven binary connectives;
their variables, their value on a model, and the constant-free formulas equivalent to them.
-/

namespace Satisfiability.Propositional

inductive Connective where
  | and
  | or
  | implies
  | xor
  | iff
  | nand
  | nor
  deriving Repr, DecidableEq

def Connective.apply : Connective → Bool → Bool → Bool
  | .and, a, b => a && b
  | .or, a, b => a || b
  | .implies, a, b => !a || b
  | .xor, a, b => a != b
  | .iff, a, b => a == b
  | .nand, a, b => !(a && b)
  | .nor, a, b => !(a || b)

inductive Formula where
  | truth (value : Bool)
  | var (name : String)
  | not (inner : Formula)
  | binary (connective : Connective) (first second : Formula)
  deriving Repr, DecidableEq

/-- The names of variables: a letter from `p` to `z`, then digits. -/
def isVariable (name : String) : Bool :=
  match name.toList with
  | [] => false
  | c :: digits => decide ('p' ≤ c) && decide (c ≤ 'z') && digits.all Char.isDigit

namespace Formula

def occurrences : Formula → List String
  | truth _ => []
  | var name => [name]
  | not inner => inner.occurrences
  | binary _ first second => first.occurrences ++ second.occurrences

def variableNames (formula : Formula) : List String := ascending formula.occurrences

/-- The value of a formula on a model, if the model has a value for each of its variables. -/
def evaluate (model : String → Option Bool) : Formula → Option Bool
  | truth value => some value
  | var name => model name
  | not inner => (inner.evaluate model).map (!·)
  | binary connective first second =>
    match first.evaluate model, second.evaluate model with
    | some a, some b => some (connective.apply a b)
    | _, _ => none

/-- A formula for `value ∘ other`. Every connective but implication is symmetric, so that the value
may stand on either side. -/
def withValue (connective : Connective) (value : Bool) (other : Formula) : Formula :=
  match connective, value with
  | .and, true | .or, false | .xor, false | .iff, true => other
  | .and, false | .nor, true => truth false
  | .or, true | .nand, false => truth true
  | .xor, true | .iff, false | .nand, true | .nor, false => not other
  | .implies, value => binary .implies (truth value) other

def foldNot : Formula → Formula
  | truth value => truth (!value)
  | folded => not folded

def foldBinary (connective : Connective) : Formula → Formula → Formula
  | truth a, truth b => truth (connective.apply a b)
  | truth a, other =>
    match connective, a with
    | .implies, true => other
    | .implies, false => truth true
    | connective, a => withValue connective a other
  | other, truth b =>
    match connective, b with
    | .implies, true => truth true
    | .implies, false => not other
    | connective, b => withValue connective b other
  | first, second => binary connective first second

/-- An equivalent formula without truth values in it, or a truth value. -/
def foldConstants : Formula → Formula
  | truth value => truth value
  | var name => var name
  | not inner => foldNot inner.foldConstants
  | binary connective first second =>
    foldBinary connective first.foldConstants second.foldConstants

end Formula

end Satisfiability.Propositional
