import Satisfiability.Literal

/-!
# Keys of clauses

A clause belongs to the problem or was added in the search for an answer. Clauses of two or more
literals are numbered within their source; a clause of one literal is named by the literal.
-/

namespace Satisfiability

inductive Source where
  | problem
  | addition
  deriving Repr, DecidableEq

inductive ClauseKey where
  | unit (source : Source) (literal : Literal)
  | stored (source : Source) (index : Nat)
  deriving Repr, DecidableEq

namespace Source

def word : Source → String
  | problem => "Original"
  | addition => "Addition"

end Source

namespace ClauseKey

def isUnit : ClauseKey → Bool
  | unit _ _ => true
  | stored _ _ => false

def index : ClauseKey → Nat
  | unit _ literal => literal.atom
  | stored _ index => index

def text : ClauseKey → String
  | unit source literal => source.word ++ "Unit(" ++ literal.text ++ ")"
  | stored source index => source.word ++ "(" ++ Nat.repr index ++ ")"

instance : ToString ClauseKey := ⟨text⟩

end ClauseKey

end Satisfiability
