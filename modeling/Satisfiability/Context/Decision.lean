import Satisfiability.Context.Basic

/-!
# Decisions

A decision gives an atom without a value one: the most active atom, or now and then a random one. It
is made true if more clauses watch its positive literal than its negative one, and false otherwise.
-/

namespace Satisfiability.Context

open Search

variable {ρ : Type} [RandomSource ρ]

/-- Whether a random atom is to be taken. No randomness is used up where that is impossible. -/
def drawsRandomly : Step (Context ρ) Bool := do
  let ctx ← get
  let bias := ctx.config.randomDecisionBias.value
  if 0.0 < bias then
    let (happens, random) := RandomSource.event bias ctx.random
    set { ctx with random }
    return happens
  else
    return false

def chooseAtom : Step (Context ρ) (Option Atom) := do
  if ← drawsRandomly then
    modifyGet fun ctx =>
      let (atom, random) := choose ctx.atoms.unvalued ctx.random
      (atom, { ctx with random })
  else
    let ctx ← get
    -- the search for it takes atoms with values off the heap
    let (atom, atoms) ← entry ctx.atoms.mostActive?
    set { ctx with atoms }
    return atom

def preferredValue (ctx : Context ρ) (atom : Atom) : Bool :=
  match ctx.watches.counts? atom with
  | none => false
  | some (positive, negative) => decide (negative < positive)

def decision : Step (Context ρ) (Option Literal) := do
  match ← chooseAtom with
  | none => return none
  | some atom =>
    modifyGet fun ctx =>
      (some ⟨atom, ctx.preferredValue atom⟩,
        { ctx with counters := { ctx.counters with decisions := ctx.counters.decisions + 1 } })

end Satisfiability.Context
