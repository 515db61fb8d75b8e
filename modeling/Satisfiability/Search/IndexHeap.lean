/-!
# Index heaps

A heap of indices, each with a value in a table that never shrinks; on top is an index of greatest
value. A second table tells where on the heap an index stands, so that an index can be taken out,
put back or moved without a search. Every access to a table is checked, and an operation has no
result if an index has no entry.
-/

namespace Satisfiability.Search

class Priority (V : Type) where
  /-- Whether the first value belongs above the second. -/
  above : V → V → Bool
  base : V

instance : Priority Int where
  above a b := decide (b < a)
  base := 0

structure IndexHeap (V : Type) where
  values : Array V := #[]
  /-- Where on the heap each index stands, if it does. -/
  places : Array (Option Nat) := #[]
  /-- The indices on the heap: the children of place `i` are the places `2i + 1` and `2i + 2`. -/
  heap : Array Nat := #[]

namespace IndexHeap

variable {V : Type} [Priority V]

def count (h : IndexHeap V) : Nat := h.values.size

def isEmpty (h : IndexHeap V) : Bool := h.heap.isEmpty

def isActive (h : IndexHeap V) (index : Nat) : Bool := h.places[index]?.join.isSome

def top? (h : IndexHeap V) : Option Nat := h.heap[0]?

def above? (h : IndexHeap V) (a b : Nat) : Option Bool := do
  let i ← h.heap[a]?
  let j ← h.heap[b]?
  let x ← h.values[i]?
  let y ← h.values[j]?
  return Priority.above x y

def swap? (h : IndexHeap V) (a b : Nat) : Option (IndexHeap V) := do
  let i ← h.heap[a]?
  let j ← h.heap[b]?
  guard (i < h.places.size ∧ j < h.places.size)
  return { h with
    heap := (h.heap.setIfInBounds a j).setIfInBounds b i
    places := (h.places.setIfInBounds j (some a)).setIfInBounds i (some b) }

/-- Moves the index at a place up as long as it belongs above its parent. -/
def siftUp? (h : IndexHeap V) (place : Nat) : Option (IndexHeap V) := do
  if place = 0 then return h
  let parent := (place - 1) / 2
  if ← h.above? place parent then
    let h ← h.swap? place parent
    h.siftUp? parent
  else
    return h
termination_by place

/-- The place, of the two, whose index belongs on top, if the second is a place at all. -/
def higher? (h : IndexHeap V) (a b : Nat) : Option Nat :=
  if b < h.heap.size then do
    return if ← h.above? b a then b else a
  else some a

/-- Moves the index at a place down, at most `steps` times, as long as a child belongs above it. -/
def siftDownWithin? (h : IndexHeap V) (place : Nat) : (steps : Nat) → Option (IndexHeap V)
  | 0 => some h
  | steps + 1 => do
    let largest ← h.higher? place (2 * place + 1)
    let largest ← h.higher? largest (2 * place + 2)
    if largest = place then return h
    let h ← h.swap? place largest
    h.siftDownWithin? largest steps

/-- Moves the index at a place down as long as a child belongs above it. Each step goes to a greater
place, so there are fewer steps than places. -/
def siftDown? (h : IndexHeap V) (place : Nat) : Option (IndexHeap V) :=
  h.siftDownWithin? place h.heap.size

def reorder? (h : IndexHeap V) (index : Nat) : Option (IndexHeap V) := do
  match ← h.places[index]? with
  | none => return h
  | some place =>
    let h ← h.siftUp? place
    match ← h.places[index]? with
    | none => return h
    | some place => h.siftDown? place

/-- Gives an index a value, and all indices before it one if they have none. Tells whether the index
is new. -/
def add? (h : IndexHeap V) (index : Nat) (value : V) : Option (Bool × IndexHeap V) :=
  let missing := index + 1 - h.values.size
  let grown := { h with
    values := (h.values ++ Array.replicate missing Priority.base).setIfInBounds index value
    places := h.places ++ Array.replicate missing none }
  -- a new index is not on the heap yet
  if h.values.size ≤ index then some (true, grown)
  else (grown.reorder? index).map fun h => (false, h)

def activate? (h : IndexHeap V) (index : Nat) : Option (Bool × IndexHeap V) := do
  match ← h.places[index]? with
  | some _ => return (false, h)
  | none =>
    let place := h.heap.size
    let h : IndexHeap V := { h with
      heap := h.heap.push index
      places := h.places.setIfInBounds index (some place) }
    return (true, ← h.siftUp? place)

def remove? (h : IndexHeap V) (index : Nat) : Option (Bool × IndexHeap V) := do
  match ← h.places[index]? with
  | none => return (false, h)
  | some place =>
    guard (0 < h.heap.size)
    let h ← h.swap? place (h.heap.size - 1)
    let h := { h with heap := h.heap.pop, places := h.places.setIfInBounds index none }
    if place < h.heap.size then
      -- the index that took the place may belong below it or above it
      let h ← h.siftDown? place
      let h ← h.siftUp? place
      return (true, h)
    else
      return (true, h)

def popMax? (h : IndexHeap V) : Option (Option Nat × IndexHeap V) :=
  match h.top? with
  | none => some (none, h)
  | some index => (h.remove? index).map fun (_, h) => (some index, h)

def heapify? (h : IndexHeap V) : Option (IndexHeap V) :=
  (List.range (h.heap.size / 2)).reverse.foldlM siftDown? h

def value? (h : IndexHeap V) (index : Nat) : Option V := h.values[index]?

def modify? (h : IndexHeap V) (index : Nat) (f : V → V) : Option (IndexHeap V) := do
  let value ← h.values[index]?
  reorder? { h with values := h.values.setIfInBounds index (f value) } index

def mapValues (h : IndexHeap V) (f : V → V) : IndexHeap V := { h with values := h.values.map f }

end IndexHeap

end Satisfiability.Search
