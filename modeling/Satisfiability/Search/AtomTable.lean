import Satisfiability.Scalar
import Satisfiability.Valuation
import Satisfiability.Search.IndexHeap

/-!
# The table of atoms

For each atom its name, its value with the level and the position at which the value was given, and
its activity. Every atom without a value is on a heap ordered by activity, the smaller atom before
the greater one where activities are equal; an atom with a value may be on it too.
-/

namespace Satisfiability.Search

structure Activity (α : Type) where
  weight : α
  atom : Atom

instance {α : Type} [Scalar α] : Priority (Activity α) where
  above a b :=
    if Scalar.same a.weight b.weight then decide (a.atom < b.atom)
    else Scalar.less b.weight a.weight
  base := ⟨Scalar.zero, 0⟩

/-- The value of an atom, the level at which it was given, and its position among all values. -/
structure Placement where
  value : Bool
  level : Nat
  position : Nat
  deriving Repr, DecidableEq

structure AtomEntry where
  name : String
  placement : Option Placement := none
  deriving Repr, DecidableEq

structure AtomTable (α : Type) where
  entries : Array AtomEntry := #[]
  activities : IndexHeap (Activity α) := {}

namespace AtomTable

variable {α : Type} [Scalar α]

def count (table : AtomTable α) : Nat := table.entries.size

def name? (table : AtomTable α) (atom : Atom) : Option String :=
  (table.entries[atom]?).map AtomEntry.name

def lastNamed? (table : AtomTable α) (name : String) : (bound : Nat) → Option Atom
  | 0 => none
  | atom + 1 => if table.name? atom = some name then some atom else table.lastNamed? name atom

def atomOf? (table : AtomTable α) (name : String) : Option Atom := table.lastNamed? name table.count

def placement? (table : AtomTable α) (atom : Atom) : Option Placement :=
  (table.entries[atom]?).bind AtomEntry.placement

def valuation (table : AtomTable α) : Valuation := fun atom =>
  (table.placement? atom).map Placement.value

def level? (table : AtomTable α) (atom : Atom) : Option Nat :=
  (table.placement? atom).map Placement.level

def position? (table : AtomTable α) (atom : Atom) : Option Nat :=
  (table.placement? atom).map Placement.position

def activity? (table : AtomTable α) (atom : Atom) : Option α :=
  (table.activities.value? atom).map Activity.weight

def unvalued (table : AtomTable α) : List Atom := table.valuation.unvalued table.count

/-- The greatest atom. Atoms are words of 32 bits, of which one is left out. -/
def greatestAtom : Nat := halfWordCount - 2

def isFull (table : AtomTable α) : Bool := decide (greatestAtom < table.count)

def fresh? (table : AtomTable α) (name : String) : Option (Atom × AtomTable α) :=
  if table.isFull then none
  else do
    let atom := table.count
    -- the activity is stored before the atom can be put on the heap
    let (_, activities) ← table.activities.add? atom ⟨Scalar.zero, atom⟩
    let (_, activities) ← activities.activate? atom
    return (atom, { entries := table.entries.push { name }, activities })

def freshOrGet? (table : AtomTable α) (name : String) : Option (Atom × AtomTable α) :=
  match table.atomOf? name with
  | some atom => some (atom, table)
  | none => table.fresh? name

def place? (table : AtomTable α) (atom : Atom) (placement : Option Placement) :
    Option (AtomTable α) :=
  (table.entries[atom]?).map fun entry =>
    { table with entries := table.entries.setIfInBounds atom { entry with placement } }

def setValue? (table : AtomTable α) (literal : Literal) (level position : Nat) :
    Option (AtomTable α) :=
  table.place? literal.atom (some ⟨literal.positive, level, position⟩)

def dropValue? (table : AtomTable α) (atom : Atom) : Option (AtomTable α) := do
  let table ← table.place? atom none
  let (_, activities) ← table.activities.activate? atom
  return { table with activities }

def bump? (table : AtomTable α) (amount : α) (atom : Atom) : Option (AtomTable α) :=
  let raised := table.activities.modify? atom fun a => { a with weight := a.weight + amount }
  raised.map fun activities => { table with activities }

def decay (table : AtomTable α) (factor : α) : AtomTable α :=
  { table with
    activities := table.activities.mapValues fun a => { a with weight := a.weight * factor } }

/-- Takes atoms with a value off the heap, at most `steps` of them, until one without a value is on
top. -/
def mostActiveWithin? (table : AtomTable α) : (steps : Nat) → Option (Option Atom × AtomTable α)
  | 0 => some (none, table)
  | steps + 1 =>
    match table.activities.top? with
    | none => some (none, table)
    | some atom =>
      if (table.valuation atom).isNone then some (some atom, table)
      else do
        -- it comes back onto the heap when its value is taken away
        let (_, activities) ← table.activities.remove? atom
        mostActiveWithin? { table with activities } steps

def mostActive? (table : AtomTable α) : Option (Option Atom × AtomTable α) :=
  table.mostActiveWithin? (table.activities.heap.size + 1)

/-- The names of the atoms with a value, behind a dash if the value is false. -/
def valuationText (table : AtomTable α) : String :=
  " ".intercalate <| table.entries.toList.filterMap fun entry =>
    entry.placement.map fun placement =>
      if placement.value then entry.name else "-" ++ entry.name

end AtomTable

end Satisfiability.Search
