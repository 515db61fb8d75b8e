import Satisfiability.Propositional.Formula

/-!
# The text of propositional formulas

Binary formulas stand in parentheses, negation is a tilde, the truth values are `T` and `F`.
-/

namespace Satisfiability.Propositional

def Connective.symbol : Connective → List Char
  | .and => ['&']
  | .or => ['|']
  | .implies => ['-', '>']
  | .xor => ['+']
  | .iff => ['<', '-', '>']
  | .nand => ['-', '&']
  | .nor => ['-', '|']

namespace Formula

def render : Formula → List Char
  | truth true => ['T']
  | truth false => ['F']
  | var name => name.toList
  | not inner => '~' :: inner.render
  | binary connective first second =>
    '(' :: (first.render ++ (connective.symbol ++ (second.render ++ [')'])))

def text (formula : Formula) : String := String.ofList formula.render

instance : ToString Formula := ⟨text⟩

end Formula

end Satisfiability.Propositional
