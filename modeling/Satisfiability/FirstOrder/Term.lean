import Satisfiability.Ascending

/-!
# First-order terms

Terms are variables, constants, and functions applied to terms. The kind of a name is seen from its
first letter.
-/

namespace Satisfiability.FirstOrder

def isNameSymbol (c : Char) : Bool := c.isAlphanum

/-- Whether `name` is made of letters and digits and its first one satisfies `first`. -/
def isNameWith (first : Char → Bool) (name : String) : Bool :=
  match name.toList with
  | [] => false
  | c :: rest => first c && (c :: rest).all isNameSymbol

def beginsConstant (c : Char) : Bool := c.isDigit || (decide ('a' ≤ c) && decide (c ≤ 'd'))

def beginsVariable (c : Char) : Bool := decide ('u' ≤ c) && decide (c ≤ 'z')

def beginsFunction (c : Char) : Bool := decide ('f' ≤ c) && decide (c ≤ 't')

def beginsRelation (c : Char) : Bool := decide ('F' ≤ c) && decide (c ≤ 'T')

def isConstant (name : String) : Bool := name == "_" || isNameWith beginsConstant name

def isVariable (name : String) : Bool := isNameWith beginsVariable name

def isFunction (name : String) : Bool := isNameWith beginsFunction name

def isRelation (name : String) : Bool := isNameWith beginsRelation name

inductive Term where
  | var (name : String)
  | const (name : String)
  | app (function : String) (arguments : List Term)
  deriving Repr

namespace Term

/-! ## Equality and order -/

mutual

def decideEq : (s t : Term) → Decidable (s = t)
  | var a, var b => decidable_of_iff (a = b) (by simp)
  | const a, const b => decidable_of_iff (a = b) (by simp)
  | app f xs, app g ys =>
    match (inferInstance : Decidable (f = g)), decideEqAll xs ys with
    | isTrue hf, isTrue hx => isTrue (by rw [hf, hx])
    | isFalse hf, _ => isFalse (by simp [hf])
    | _, isFalse hx => isFalse (by simp [hx])
  | var _, const _ | var _, app _ _ | const _, var _ | const _, app _ _ | app _ _, var _
  | app _ _, const _ => isFalse (by simp)

def decideEqAll : (ss ts : List Term) → Decidable (ss = ts)
  | [], [] => isTrue rfl
  | s :: ss, t :: ts =>
    match decideEq s t, decideEqAll ss ts with
    | isTrue h, isTrue hs => isTrue (by rw [h, hs])
    | isFalse h, _ => isFalse (by simp [h])
    | _, isFalse hs => isFalse (by simp [hs])
  | [], _ :: _ | _ :: _, [] => isFalse (by simp)

end

instance : DecidableEq Term := decideEq

mutual

/-- The order of terms: variables, constants, applications; within a kind by name, and then by the
arguments from left to right. -/
def order : Term → Term → Ordering
  | var a, var b => compare a b
  | var _, _ => .lt
  | const _, var _ => .gt
  | const a, const b => compare a b
  | const _, app _ _ => .lt
  | app f xs, app g ys => (compare f g).then (orderAll xs ys)
  | app _ _, _ => .gt

/-- The order of lists of terms: the first difference decides, and a list comes before its
extensions. -/
def orderAll : List Term → List Term → Ordering
  | [], [] => .eq
  | [], _ :: _ => .lt
  | _ :: _, [] => .gt
  | s :: ss, t :: ts => (order s t).then (orderAll ss ts)

end

instance : Ord Term := ⟨order⟩

/-! ## Parts -/

def root : Term → String
  | var name => name
  | const name => name
  | app function _ => function

def arguments : Term → List Term
  | app _ arguments => arguments
  | _ => []

mutual

def parts : Term → List Term
  | var name => [var name]
  | const name => [const name]
  | app function arguments => app function arguments :: partsAll arguments

def partsAll : List Term → List Term
  | [] => []
  | t :: ts => t.parts ++ partsAll ts

end

def subterms (t : Term) : List Term := ascending t.parts

def variableName? : Term → Option String
  | var name => some name
  | _ => none

def variableNames (t : Term) : List String := ascending (t.parts.filterMap variableName?)

/-! ## Text -/

mutual

def render : Term → List Char
  | var name => name.toList
  | const name => name.toList
  | app function arguments => function.toList ++ ('(' :: (renderAll arguments ++ [')']))

def renderAll : List Term → List Char
  | [] => []
  | [t] => t.render
  | t :: ts => t.render ++ (',' :: renderAll ts)

end

def text (t : Term) : String := String.ofList t.render

instance : ToString Term := ⟨text⟩

end Term

end Satisfiability.FirstOrder
