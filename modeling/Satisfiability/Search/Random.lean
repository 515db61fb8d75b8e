import Satisfiability.Scalar

/-!
# Sources of randomness

What the search draws at random: whether an event of given probability happens, and an index below a
bound. Any source will do; a simple one is `SplitMix`, a 64-bit generator whose state moves on by a
constant.
-/

namespace Satisfiability.Search

class RandomSource (ρ : Type) where
  /-- Whether an event with this probability happens. -/
  event : Float → ρ → Bool × ρ
  index : Nat → ρ → Nat × ρ

/-- One element of a list, each as likely as the others: the `k`-th replaces the choice so far with
probability `1 / k`. -/
def choose {ρ α : Type} [RandomSource ρ] (elements : List α) (source : ρ) : Option α × ρ :=
  let step : (Option α × Nat) × ρ → α → (Option α × Nat) × ρ := fun ((choice, k), source) a =>
    let (i, source) := RandomSource.index (k + 1) source
    ((if i = 0 then some a else choice, k + 1), source)
  let ((choice, _), source) := elements.foldl step ((none, 0), source)
  (choice, source)

structure SplitMix where
  state : UInt64 := 0
  deriving Repr, DecidableEq

namespace SplitMix

def next (source : SplitMix) : UInt64 × SplitMix :=
  let state := source.state + 0x9E3779B97F4A7C15
  let z := (state ^^^ (state >>> 30)) * 0xBF58476D1CE4E5B9
  let z := (z ^^^ (z >>> 27)) * 0x94D049BB133111EB
  (z ^^^ (z >>> 31), ⟨state⟩)

/-- Whether an event happens: the next word, as a fraction of all words, is below the probability.
Certainty needs no word. -/
def event (probability : Float) (source : SplitMix) : Bool × SplitMix :=
  if probability == 1.0 then (true, source)
  else
    let (word, source) := source.next
    (decide (word < (probability * 18446744073709551616.0).toUInt64), source)

/-- The greatest low half of a product that is accepted for a bound: the bound shifted left as far
as 32 bits allow, less one. -/
def acceptanceZone (bound : Nat) : Nat :=
  (bound * Nat.pow 2 (31 - bound.log2) + halfWordCount - 1) % halfWordCount

/-- An index below a bound, from the first of the next `tries` words of 32 bits that is accepted. -/
def indexWithin (bound : Nat) : (tries : Nat) → SplitMix → Nat × SplitMix
  | 0, source => (0, source)
  | tries + 1, source =>
    let (word, source) := source.next
    let product := (word.toNat % halfWordCount) * bound
    if product % halfWordCount ≤ acceptanceZone bound then (product / halfWordCount, source)
    else indexWithin bound tries source

/-- An index below a bound. More than half of all words are accepted, and the states of the
generator are as many as the tries. -/
def index (bound : Nat) (source : SplitMix) : Nat × SplitMix := indexWithin bound wordCount source

instance : RandomSource SplitMix := ⟨event, index⟩

end SplitMix

end Satisfiability.Search
