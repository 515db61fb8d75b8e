import Mathlib.Data.Int.Order.Basic
import Mathlib.Data.List.Nodup
import Mathlib.Order.Lattice
import Mathlib.Order.Monotone.Defs
import Satisfiability.Proofs.Search.HeapOrder

/-!
# Heaps as priority queues

Seen from outside, a priority queue holds a value for each index that was given one, and knows which
indices wait to be served (`Queue`). What an operation does to it can be said without a heap
(`Operation.after`). A run of operations on a heap that starts empty finds every entry that it asks
for, and the heap that it ends with serves the queue: its table of places is right, it is in order,
and on top is a waiting index of greatest value (`runAll?_serves`).
-/

namespace Satisfiability.Search

/-- Of two values the greater one belongs above the other. -/
class PriorityOrder (V : Type) [LinearOrder V] [Priority V] : Prop where
  above_iff : ∀ x y : V, Priority.above x y = true ↔ y < x

instance : PriorityOrder Int := ⟨fun _ _ => decide_eq_true_iff⟩

theorem follows_le {V : Type} [LinearOrder V] [Priority V] [PriorityOrder V] :
    Priority.Follows fun x y : V => x ≤ y := by
  refine ⟨fun x y z => le_trans, fun x y habove => ?_, fun x y hnot => ?_⟩
  · exact le_of_lt ((PriorityOrder.above_iff x y).1 habove)
  · apply le_of_not_gt
    intro hlt
    rw [(PriorityOrder.above_iff x y).2 hlt] at hnot
    cases hnot

namespace IndexHeap

variable {V : Type}

/-- A priority queue: the value of each index that has one, and whether an index is waiting. -/
structure Queue (V : Type) where
  value? : Nat → Option V := fun _ => none
  waiting : Nat → Bool := fun _ => false

inductive Operation (V : Type) where
  | add (index : Nat) (value : V)
  | activate (index : Nat)
  | remove (index : Nat)
  | popMax
  | modify (index : Nat) (f : V → V)
  | heapify
  | mapValues (f : V → V)

namespace Operation

def countAfter (count : Nat) : Operation V → Nat
  | add index _ => max count (index + 1)
  | _ => count

/-- The call is about indices that have a value, and does not change the order of values. -/
def Allowed [LinearOrder V] (count : Nat) : Operation V → Prop
  | add _ _ => True
  | activate index => index < count
  | remove index => index < count
  | popMax => True
  | modify index _ => index < count
  | heapify => True
  | mapValues f => Monotone f

variable [Priority V]

def run? (h : IndexHeap V) : Operation V → Option (Option Nat × IndexHeap V)
  | add index value => (h.add? index value).map fun (_, h) => (none, h)
  | activate index => (h.activate? index).map fun (_, h) => (none, h)
  | remove index => (h.remove? index).map fun (_, h) => (none, h)
  | popMax => h.popMax?
  | modify index f => (h.modify? index f).map fun h => (none, h)
  | heapify => h.heapify?.map fun h => (none, h)
  | mapValues f => some (none, h.mapValues f)

def after (queue : Queue V) (popped : Option Nat) : Operation V → Queue V
  | add index value => { queue with
      value? := fun i =>
        if i = index then some value
        else if i < index then some ((queue.value? i).getD Priority.base)
        else queue.value? i }
  | activate index => { queue with waiting := fun i => decide (i = index) || queue.waiting i }
  | remove index => { queue with waiting := fun i => !decide (i = index) && queue.waiting i }
  | popMax => { queue with waiting := fun i => !decide (popped = some i) && queue.waiting i }
  | modify index f => { queue with
      value? := fun i => if i = index then (queue.value? i).map f else queue.value? i }
  | heapify => queue
  | mapValues f => { queue with value? := fun i => (queue.value? i).map f }

end Operation

def AllAllowed [LinearOrder V] (count : Nat) : List (Operation V) → Prop
  | [] => True
  | call :: rest => call.Allowed count ∧ AllAllowed (call.countAfter count) rest

def runAll? [Priority V] : List (Operation V) → IndexHeap V → Queue V →
    Option (IndexHeap V × Queue V)
  | [], h, queue => some (h, queue)
  | call :: rest, h, queue => do
    let (popped, h) ← call.run? h
    runAll? rest h (call.after queue popped)

variable {h h' : IndexHeap V} {queue : Queue V}

/-- The heap is in order and holds the values and the waiting indices of the queue. -/
structure Represents [LE V] (h : IndexHeap V) (queue : Queue V) : Prop where
  inverse : h.Inverse
  ordered : Ordered (· ≤ ·) 0 h.key?
  value : ∀ i, h.value? i = queue.value? i
  active : ∀ i, h.isActive i = queue.waiting i

theorem Represents.of_values [LE V] (hrep : h.Represents queue) (hinv : h'.Inverse)
    (hordered : Ordered (· ≤ ·) 0 h'.key?) (hvalues : h'.values = h.values) {waiting : Nat → Bool}
    (hactive : ∀ i, h'.isActive i = waiting i) :
    h'.Represents { queue with waiting } ∧ h'.count = h.count := by
  refine ⟨⟨hinv, hordered, fun i => ?_, hactive⟩, by rw [count, hvalues]; rfl⟩
  rw [value?, hvalues]
  exact hrep.value i

theorem represents_empty [LE V] : ({} : IndexHeap V).Represents {} := by
  refine ⟨inverse_empty, fun place child _ _ x _ hx _ => ?_, fun _ => rfl, fun _ => rfl⟩
  exact absurd (lt_of_key? hx) (Nat.not_lt_zero child)

/-! ## Calls -/

theorem Inverse.popMax?_active [Priority V] (hinv : h.Inverse) :
    ∃ h', h.popMax? = some (h.top?, h') ∧ h'.Inverse ∧ h'.values = h.values ∧
      ∀ i, h'.isActive i = (!decide (h.top? = some i) && h.isActive i) := by
  cases htop : h.top? with
  | none => exact ⟨h, by simp [popMax?, htop], hinv, rfl, fun i => by simp⟩
  | some index =>
    obtain ⟨removed, h', hremove, hinv', hvalues, -, hactive⟩ :=
      hinv.remove?_active (hinv.lt_of_heap htop)
    refine ⟨h', by simp [popMax?, htop, hremove], hinv', hvalues, fun i => ?_⟩
    rw [hactive]
    simp only [Option.some.injEq, eq_comm]

section order

variable [LinearOrder V] [Priority V] [PriorityOrder V]

theorem Represents.run? (hrep : h.Represents queue) {call : Operation V}
    (hallowed : call.Allowed h.count) : ∃ popped h', call.run? h = some (popped, h') ∧
      h'.Represents (call.after queue popped) ∧ h'.count = call.countAfter h.count := by
  have hinv := hrep.inverse
  have hordered := hrep.ordered
  cases call with
  | add index value =>
    obtain ⟨fresh, h', hrun, hinv', hvalues, hactive⟩ := hinv.add?_active index value
    have hordered' := hinv.add?_ordered follows_le hordered hrun
    refine ⟨none, h', by simp [Operation.run?, hrun], ⟨hinv', hordered', fun i => ?_, fun i => ?_⟩, ?_⟩
    · have hgrown := value?_grown index value i (h := h)
      rw [value?, ← hvalues, hrep.value] at hgrown
      exact hgrown
    · exact (hactive i).trans (hrep.active i)
    · rw [count, hvalues]
      exact count_grown index value
  | activate index =>
    obtain ⟨added, h', hrun, hinv', hvalues, hactive⟩ := hinv.activate?_active hallowed
    have hordered' := hinv.activate?_ordered follows_le hordered hrun
    refine ⟨none, h', by simp [Operation.run?, hrun], hrep.of_values hinv' hordered' hvalues ?_⟩
    exact fun i => by rw [hactive, hrep.active]
  | remove index =>
    obtain ⟨removed, h', hrun, hinv', hvalues, -, hactive⟩ := hinv.remove?_active hallowed
    have hordered' := hinv.remove?_ordered follows_le hordered hrun
    refine ⟨none, h', by simp [Operation.run?, hrun], hrep.of_values hinv' hordered' hvalues ?_⟩
    exact fun i => by rw [hactive, hrep.active]
  | popMax =>
    obtain ⟨h', hrun, hinv', hvalues, hactive⟩ := hinv.popMax?_active
    have hordered' := hinv.popMax?_ordered follows_le hordered hrun
    refine ⟨h.top?, h', hrun, hrep.of_values hinv' hordered' hvalues ?_⟩
    exact fun i => by rw [hactive, hrep.active]
  | modify index f =>
    obtain ⟨h', hrun, hinv', hcount, hvalue, hactive⟩ := hinv.modify?_active hallowed f
    have hordered' := hinv.modify?_ordered follows_le hordered hrun
    refine ⟨none, h', by simp [Operation.run?, hrun], ⟨hinv', hordered', fun i => ?_, fun i => ?_⟩,
      hcount⟩
    · rw [hvalue, hrep.value]
      rfl
    · exact (hactive i).trans (hrep.active i)
  | heapify =>
    obtain ⟨h', hrun, hre, hordered'⟩ := hinv.heapify?_ordered follows_le
    refine ⟨none, h', by simp [Operation.run?, hrun],
      hrep.of_values hre.inverse hordered' hre.values ?_⟩
    exact fun i => (hre.active i).trans (hrep.active i)
  | mapValues f =>
    refine ⟨none, h.mapValues f, rfl,
      ⟨hinv.mapValues f, hordered.mapValues hallowed, fun i => ?_, hrep.active⟩, ?_⟩
    · rw [value?, IndexHeap.mapValues, Array.getElem?_map]
      simp only [Operation.after, ← hrep.value]
      rfl
    · rw [count, IndexHeap.mapValues, Array.size_map]
      rfl

theorem Represents.runAll? (hrep : h.Represents queue) {calls : List (Operation V)}
    (hallowed : AllAllowed h.count calls) : ∃ h' queue', runAll? calls h queue = some (h', queue') ∧
      h'.Represents queue' := by
  induction calls generalizing h queue with
  | nil => exact ⟨h, queue, rfl, hrep⟩
  | cons call rest ih =>
    obtain ⟨popped, h₁, hrun, hrep₁, hcount⟩ := hrep.run? hallowed.1
    obtain ⟨h', queue', hrest, hrep'⟩ := ih hrep₁ (hcount ▸ hallowed.2)
    exact ⟨h', queue', by rw [IndexHeap.runAll?, hrun]; exact hrest, hrep'⟩

/-- The heap is a heap of the waiting indices of the queue. -/
structure Serves (h : IndexHeap V) (queue : Queue V) : Prop where
  nodup : h.heap.toList.Nodup
  /-- The table of places is the inverse of the heap. -/
  place_iff : ∀ index place : Nat, h.places[index]? = some (some place) ↔ h.heap[place]? = some index
  /-- No value is greater than the one at the place above. -/
  ordered : ∀ place child, IsChild child place → ∀ x y, h.key? child = some x →
    h.key? place = some y → x ≤ y
  value : ∀ i, h.value? i = queue.value? i
  active : ∀ i, h.isActive i = queue.waiting i
  /-- There is nothing on top only if nothing is waiting. -/
  idle : h.top? = none ↔ ∀ i, queue.waiting i = false
  /-- What is on top is waiting, and nothing that is waiting has a greater value. -/
  greatest : ∀ top, h.top? = some top → queue.waiting top = true ∧
    ∃ y, queue.value? top = some y ∧
      ∀ i, queue.waiting i = true → ∃ x, queue.value? i = some x ∧ x ≤ y
  pops : ∃ h', h.popMax? = some (h.top?, h')

theorem Represents.serves (hrep : h.Represents queue) : h.Serves queue := by
  obtain ⟨hinv, hordered, hvalue, hactive⟩ := hrep
  have hwaiting : ∀ i, queue.waiting i = true ↔ ∃ place : Nat, h.heap[place]? = some i := fun i => by
    rw [← hactive, hinv.isActive_iff_mem, Array.mem_iff_getElem?]
  refine ⟨?_, hinv.place_iff, fun place child hchild => hordered place child (Nat.zero_le _) hchild,
    hvalue, hactive, ⟨fun htop i => ?_, fun hidle => ?_⟩, fun top htop => ?_,
    hinv.popMax?_active.imp fun _ hpop => hpop.1⟩
  · -- an index stands at one place only, since the places are inverse to the heap
    rw [List.nodup_iff_getElem?_ne_getElem?]
    intro a b hab hb heq
    rw [Array.getElem?_toList, Array.getElem?_toList] at heq
    rw [Array.length_toList] at hb
    have hplace := Array.getElem?_eq_getElem hb
    exact Nat.ne_of_lt hab (hinv.place_unique (heq.trans hplace) hplace)
  · have hempty : h.heap.size = 0 := Nat.le_zero.1 (Array.getElem?_eq_none_iff.1 htop)
    rw [Bool.eq_false_iff, ne_eq, hwaiting]
    rintro ⟨place, hplace⟩
    have hlt := (Array.getElem?_eq_some_iff.1 hplace).1
    omega
  · refine Option.eq_none_iff_forall_ne_some.2 fun top htop => ?_
    have hserved := (hwaiting top).2 ⟨0, htop⟩
    rw [hidle top] at hserved
    cases hserved
  · obtain ⟨y, hy⟩ : ∃ y, h.value? top = some y :=
      ⟨_, Array.getElem?_eq_getElem (hinv.lt_of_heap htop)⟩
    refine ⟨(hwaiting top).2 ⟨0, htop⟩, y, by rw [← hvalue, hy], fun i hi => ?_⟩
    obtain ⟨place, hplace⟩ := (hwaiting i).1 hi
    obtain ⟨x, hx⟩ : ∃ x, h.value? i = some x :=
      ⟨_, Array.getElem?_eq_getElem (hinv.lt_of_heap hplace)⟩
    refine ⟨x, by rw [← hvalue, hx], ?_⟩
    have hkey : h.key? place = some x := by rw [key?, hplace]; exact hx
    have hkey₀ : h.key? 0 = some y := by rw [key?, show h.heap[0]? = some top from htop]; exact hy
    exact hinv.atMost_top follows_le hordered place x y hkey hkey₀

end order

/-- After calls that are allowed, each of which has a result, the heap is a heap of the indices that
are waiting then, with an index of greatest value on top. -/
theorem runAll?_serves [LinearOrder V] [Priority V] [PriorityOrder V] (calls : List (Operation V))
    (hallowed : AllAllowed 0 calls) :
    ∃ h queue, runAll? calls {} {} = some (h, queue) ∧ h.Serves queue := by
  obtain ⟨h, queue, hrun, hrep⟩ := represents_empty.runAll? hallowed
  exact ⟨h, queue, hrun, hrep.serves⟩

/-- Two indices behind a gap are put on a heap; one is popped and comes back with another value. -/
def callsWithGap : List (Operation Int) :=
  [.add 3 10, .add 1 70, .activate 3, .activate 1, .activate 0, .popMax, .mapValues (· + 5),
    .modify 3 (· - 20), .add 1 4, .activate 1, .remove 0, .heapify]

theorem runAll?_serves_gap : AllAllowed 0 callsWithGap ∧
    ∃ h queue, runAll? callsWithGap {} {} = some (h, queue) ∧ h.Serves queue := by
  have hshift : (Operation.mapValues fun x : Int => x + 5).Allowed 4 :=
    fun _ _ hle => Int.add_le_add_right hle 5
  have hallowed : AllAllowed 0 callsWithGap :=
    ⟨trivial, trivial, (by decide : 3 < 4), (by decide : 1 < 4), (by decide : 0 < 4), trivial, hshift,
      (by decide : 3 < 4), trivial, (by decide : 1 < 4), (by decide : 0 < 4), trivial, trivial⟩
  exact ⟨hallowed, runAll?_serves callsWithGap hallowed⟩

end IndexHeap

end Satisfiability.Search
