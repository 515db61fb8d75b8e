import Satisfiability.KeyMap
import Satisfiability.Scalar
import Satisfiability.FirstOrder.Term
import Satisfiability.Fault
import Satisfiability.Text.Numeral

/-!
# Linear expressions

A linear expression is a sum of variables with coefficients and a constant. Terms over `plus`,
`minus` and `mult` (or `multi`) are read as linear expressions if in each product at most one factor
has variables. Constants that are numerals stand for their values.
-/

namespace Satisfiability.Linear

open Satisfiability.FirstOrder (Term)
open Text (ReadingFault Numeral)

/-- A sum of variables with coefficients, none of them zero, and a constant. -/
structure Expression (α : Type) where
  coefficients : NameMap α
  constant : α
  deriving Repr

namespace Expression

variable {α : Type} [Scalar α]

def ofConstant (constant : α) : Expression α := ⟨.empty, constant⟩

def ofVariable (name : String) : Expression α := ⟨KeyMap.empty.insert name Scalar.one, Scalar.zero⟩

def addCoefficient (coefficients : NameMap α) (name : String) (amount : α) : NameMap α :=
  coefficients.insert name ((coefficients.find? name).getD Scalar.zero + amount)

def addScaled (a b : Expression α) (factor : α) : Expression α :=
  let sum := b.coefficients.toList.foldl
    (fun sum (name, coefficient) => addCoefficient sum name (factor * coefficient)) a.coefficients
  ⟨sum.filter fun coefficient => !Scalar.same coefficient Scalar.zero,
    a.constant + factor * b.constant⟩

def scale (a : Expression α) (factor : α) : Expression α :=
  (ofConstant Scalar.zero).addScaled a factor

def isConstant (a : Expression α) : Bool := a.coefficients.isEmpty

def multiply? (a b : Expression α) : Option (Expression α) :=
  if a.isConstant then some (b.scale a.constant)
  else if b.isConstant then some (a.scale b.constant)
  else none

def sum (expressions : List (Expression α)) : Expression α :=
  expressions.foldl (fun sum a => sum.addScaled a Scalar.one) (ofConstant Scalar.zero)

/-- The negation of a single expression, or the first of several less the others. -/
def difference? : List (Expression α) → Option (Expression α)
  | [] => none
  | [a] => some (a.scale (-Scalar.one))
  | a :: others => some (others.foldl (fun difference b => difference.addScaled b (-Scalar.one)) a)

/-- The product of some expressions, if at most one of them is not constant. -/
def product? (expressions : List (Expression α)) : Option (Expression α) :=
  expressions.foldlM multiply? (ofConstant Scalar.one)

def evaluate? (function : String) (arguments : List (Expression α)) : Option (Expression α) :=
  if function = "plus" then some (sum arguments)
  else if function = "minus" then difference? arguments
  else if function = "mult" ∨ function = "multi" then product? arguments
  else none

def numeralValue (numeral : Numeral) : α :=
  let value := Scalar.ofDecimal numeral.mantissa numeral.exponent
  if numeral.negative then -value else value

mutual

def ofTerm : Term → Except ReadingFault (Expression α)
  | .var name => .ok (ofVariable name)
  | .const name =>
    match Numeral.read? name.toList with
    | some numeral => .ok (ofConstant (numeralValue numeral))
    | none => .error (.notLinear name)
  | .app function arguments =>
    match ofTerms arguments with
    | .error fault => .error fault
    | .ok expressions =>
      match evaluate? function expressions with
      | some expression => .ok expression
      | none => .error (.notLinear (Term.text (.app function arguments)))

def ofTerms : List Term → Except ReadingFault (List (Expression α))
  | [] => .ok []
  | t :: ts =>
    match ofTerm t with
    | .error fault => .error fault
    | .ok expression =>
      match ofTerms ts with
      | .error fault => .error fault
      | .ok expressions => .ok (expression :: expressions)

end

end Expression

end Satisfiability.Linear
