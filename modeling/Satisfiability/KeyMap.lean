/-!
# Maps with ordered keys

Finite maps listed in the order of their keys. A key has one value, the last one given to it. Maps
from names are `NameMap`.
-/

namespace Satisfiability

structure KeyMap (κ α : Type) where
  /-- The keys with their values, the smallest key first. -/
  toList : List (κ × α) := []
  deriving Repr, DecidableEq

abbrev NameMap (α : Type) : Type := KeyMap String α

namespace KeyMap

variable {κ α : Type}

def empty : KeyMap κ α := ⟨[]⟩

def keys (map : KeyMap κ α) : List κ := map.toList.map Prod.fst

def filter (map : KeyMap κ α) (p : α → Bool) : KeyMap κ α :=
  ⟨map.toList.filter fun (_, value) => p value⟩

def isEmpty (map : KeyMap κ α) : Bool := map.toList.isEmpty

variable [DecidableEq κ]

def get? (key : κ) : List (κ × α) → Option α
  | [] => none
  | (other, x) :: rest => if other = key then some x else get? key rest

def find? (map : KeyMap κ α) (key : κ) : Option α := get? key map.toList

variable [LT κ] [DecidableLT κ]

/-- Puts a key with its value in its place, instead of the value that it had. -/
def place (key : κ) (value : α) : List (κ × α) → List (κ × α)
  | [] => [(key, value)]
  | (other, x) :: rest =>
    if other = key then (key, value) :: rest
    else if other < key then (other, x) :: place key value rest
    else (key, value) :: (other, x) :: rest

def insert (map : KeyMap κ α) (key : κ) (value : α) : KeyMap κ α := ⟨place key value map.toList⟩

/-- The map of some pairs; of several pairs with one key the last one counts. -/
def ofList (pairs : List (κ × α)) : KeyMap κ α :=
  pairs.foldl (fun map (key, value) => map.insert key value) empty

theorem get?_place (pairs : List (κ × α)) (key other : κ) (value : α) :
    get? other (place key value pairs) = if key = other then some value else get? other pairs := by
  induction pairs with
  | nil => simp [place, get?]
  | cons pair rest ih =>
    obtain ⟨first, x⟩ := pair
    unfold place
    split
    · rename_i h
      subst h
      by_cases h : first = other <;> simp [get?, h]
    · split
      · by_cases h : first = other
        · subst h
          simp_all [get?, eq_comm]
        · simp [get?, h, ih]
      · by_cases h : key = other <;> simp [get?, h]

theorem find?_insert (map : KeyMap κ α) (key other : κ) (value : α) :
    (map.insert key value).find? other = if key = other then some value else map.find? other :=
  get?_place map.toList key other value

end KeyMap

end Satisfiability
