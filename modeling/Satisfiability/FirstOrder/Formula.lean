import Satisfiability.FirstOrder.Term

/-!
# First-order formulas

Equalities and relations between terms, negation, three binary connectives, and quantification.
-/

namespace Satisfiability.FirstOrder

inductive Formula where
  | equality (left right : Term)
  | relation (name : String) (arguments : List Term)
  | not (inner : Formula)
  | and (first second : Formula)
  | or (first second : Formula)
  | implies (first second : Formula)
  | forAll (name : String) (body : Formula)
  | exist (name : String) (body : Formula)
  deriving Repr, DecidableEq

namespace Formula

def isAtomic : Formula → Bool
  | equality _ _ => true
  | relation _ _ => true
  | _ => false

/-- The sides of the equalities and the arguments of the relations of a formula, from left to right
and with repetitions. -/
def atomArguments : Formula → List Term
  | equality left right => [left, right]
  | relation _ arguments => arguments
  | not inner => inner.atomArguments
  | and first second => first.atomArguments ++ second.atomArguments
  | or first second => first.atomArguments ++ second.atomArguments
  | implies first second => first.atomArguments ++ second.atomArguments
  | forAll _ body => body.atomArguments
  | exist _ body => body.atomArguments

/-- The sides of the equalities and the arguments of the relations, in the order of terms. -/
def argumentTerms (formula : Formula) : List Term := ascending formula.atomArguments

def render : Formula → List Char
  | equality left right => left.render ++ ('=' :: right.render)
  | relation name arguments => name.toList ++ ('(' :: (Term.renderAll arguments ++ [')']))
  | not inner => '~' :: inner.render
  | and first second => '(' :: (first.render ++ ('&' :: (second.render ++ [')'])))
  | or first second => '(' :: (first.render ++ ('|' :: (second.render ++ [')'])))
  | implies first second => '(' :: (first.render ++ ('-' :: '>' :: (second.render ++ [')'])))
  | forAll name body => 'A' :: (name.toList ++ ('[' :: (body.render ++ [']'])))
  | exist name body => 'E' :: (name.toList ++ ('[' :: (body.render ++ [']'])))

def text (formula : Formula) : String := String.ofList formula.render

instance : ToString Formula := ⟨text⟩

end Formula

end Satisfiability.FirstOrder
