import Satisfiability.Scalar

/-!
# Configuration

Each option has bounds, and a value outside them is not accepted.
-/

namespace Satisfiability

structure Setting (α : Type) where
  least : α
  greatest : α
  value : α

def Setting.set {α : Type} [LE α] [DecidableLE α] (setting : Setting α) (value : α) :
    Bool × Setting α :=
  if setting.least ≤ value ∧ value ≤ setting.greatest then (true, { setting with value })
  else (false, setting)

structure LinearConfig where
  /-- How many eta matrices are kept before the basis is factorised again. -/
  etaLimit : Setting Nat := ⟨0, greatestWord, 10⟩
  /-- Pivots of smaller magnitude are avoided where there is a choice. -/
  pivotTolerance : Setting Float := ⟨0.0, 1.0, 1e-11⟩
  /-- Costs and residuals up to this are taken for zero. -/
  feasibilityTolerance : Setting Float := ⟨0.0, 1.0, 1e-9⟩
  /-- Whether the smallest column enters from the first pivot on. -/
  bland : Setting Bool := ⟨false, true, false⟩
  /-- How many pivots are allowed, if not any number. -/
  iterationLimit : Option Nat := none

def greatestFinite : Float := Float.ofBits 0x7fefffffffffffff

structure Config where
  /-- What is added to the activity of an atom for each clause it occurs in. -/
  activityBump : Setting Float := ⟨0.0, greatestFinite, 1.0⟩
  /-- The factor for all activities whenever a clause is learnt. -/
  activityDecay : Setting Float := ⟨0.0, 1.0, 0.5⟩
  /-- How likely a decision takes any atom rather than the most active one. -/
  randomDecisionBias : Setting Float := ⟨0.0, 1.0, 0.0⟩
  /-- The number of seconds allowed, if not any number. -/
  timeLimit : Option Nat := none
  linear : LinearConfig := {}

end Satisfiability
