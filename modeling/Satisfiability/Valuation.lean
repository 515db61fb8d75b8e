import Satisfiability.Literal

/-!
# Valuations

A valuation gives some atoms a value. On it a literal is true, false, or open.
-/

namespace Satisfiability

abbrev Valuation : Type := Atom → Option Bool

inductive LiteralStatus where
  | unvalued
  | holds
  | fails
  deriving Repr, DecidableEq

namespace Valuation

def status (valuation : Valuation) (literal : Literal) : LiteralStatus :=
  match valuation literal.atom with
  | none => .unvalued
  | some value => if value = literal.positive then .holds else .fails

/-- The valuation that gives the atoms from zero on the values of a list. -/
def ofList (values : List (Option Bool)) : Valuation := fun atom => values[atom]?.join

def unvalued (valuation : Valuation) (count : Nat) : List Atom :=
  (List.range count).filter fun atom => (valuation atom).isNone

def satisfies (valuation : Valuation) (clause : List Literal) : Bool :=
  clause.any fun literal => valuation.status literal == .holds

end Valuation

end Satisfiability
