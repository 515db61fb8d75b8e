import Satisfiability.Proofs.Equality.Closure
import Satisfiability.Proofs.Equality.Return

/-!
# Nodes made between merges

Nodes can be made when classes have been merged, and when the merges can still be undone. The
parents of each class stay those kept on its root exactly if the arguments of a new node have the
representatives that they have in all classes that can be returned to (`Steady.parentsKept_iff`),
and the classes stay closed under congruence exactly if no node congruent to the new one is there
(`Valid.closed_iff_apart`). Otherwise nothing puts it right later: a return to a checkpoint leaves
the node on the root of a class that its argument has left, and a merge looks at no nodes but the
parents of the two classes (`late_nodes_lost`).
-/

namespace Satisfiability.Equality.TermClasses

open Satisfiability.FirstOrder (Term)

variable {classes : TermClasses} {a b : NodeId} {symbol : String} {arguments : List NodeId} {n : Nat}

/-! ## Classes on the way back -/

/-- The classes that can be returned to are valid, and nodes that are in one class there still are
in what came later. -/
structure Steady (classes : TermClasses) : Prop where
  valid : ∀ n, (back^[n] classes).Valid
  finer : ∀ n a b, (back^[n + 1] classes).same a b = true → (back^[n] classes).same a b = true
  logged : classes.Logged

theorem Steady.now (h : classes.Steady) : classes.Valid := h.valid 0

theorem Steady.same_of_iterate (h : classes.Steady) (n : Nat)
    (hab : (back^[n] classes).same a b = true) : classes.same a b = true := by
  induction n with
  | zero => exact hab
  | succ n ih => exact ih (h.finer n a b hab)

theorem iterate_back_empty (n : Nat) : back^[n] {} = {} :=
  Function.iterate_fixed (back_of_nil rfl) n

theorem steady_empty : Steady {} := by
  refine ⟨fun n => ?_, fun n a b hab => ?_, fun log hmem merge hmerge => ?_⟩
  · rw [iterate_back_empty]
    exact valid_empty
  · rwa [iterate_back_empty] at hab ⊢
  · rw [List.mem_singleton.1 hmem] at hmerge
    exact absurd hmerge List.not_mem_nil

theorem Steady.merge (h : classes.Steady) (ha : a < classes.size) (hb : b < classes.size) :
    (classes.merge a b).2.Steady := by
  obtain ⟨hmerged, -⟩ := h.now.merge ha hb
  have hlogged := (h.now.merge_ends ha hb).logged h.now h.logged
  -- without a checkpoint there is no way back, and with one it leads to where it led
  rcases hmerged.iterate_back with hback | hback
  · refine ⟨fun n => ?_, fun n x y hxy => ?_, hlogged⟩
    · rw [hback]
      exact hmerged.valid
    · rwa [hback] at hxy ⊢
  · refine ⟨fun n => ?_, fun n x y hxy => ?_, hlogged⟩
    · cases n with
      | zero => exact hmerged.valid
      | succ n => exact hback n ▸ h.valid (n + 1)
    · rw [hback] at hxy
      cases n with
      | zero => exact hmerged.same x y (h.finer 0 x y hxy)
      | succ n => exact hback n ▸ h.finer (n + 1) x y hxy

theorem Steady.checkpoint (h : classes.Steady) : classes.checkpoint.Steady := by
  have hnodes : classes.checkpoint.nodes = classes.nodes := rfl
  -- the first step back leads to the classes themselves
  refine ⟨fun n => ?_, fun n a b hab => ?_, fun log hmem merge hmerge => ?_⟩
  · cases n with
    | zero => exact h.now.congr hnodes
    | succ n => exact h.valid n
  · cases n with
    | zero => exact (same_congr hnodes a b).trans hab
    | succ n => exact h.finer n a b hab
  · rcases List.mem_cons.1 hmem with rfl | hmem
    · exact absurd hmerge List.not_mem_nil
    · exact h.logged log hmem merge hmerge

theorem Steady.restored (h : classes.Steady) : classes.back.Steady :=
  ⟨fun n => h.valid (n + 1), fun n => h.finer (n + 1), h.logged.restored⟩

/-! ## A new node and the classes on the way back -/

/-- A node that is not there yet, with the classes it is to be made in. -/
structure Newcomer where
  classes : TermClasses
  symbol : String
  arguments : List NodeId

/-- Each argument has the representative that it has in all classes that can be returned to, so no
return takes it out of the class of the root that the node is put on. -/
def Newcomer.Settled (newcomer : Newcomer) : Prop :=
  ∀ argument ∈ newcomer.arguments, ∀ n,
    (back^[n] newcomer.classes).representative argument =
      newcomer.classes.representative argument

def Newcomer.Apart (newcomer : Newcomer) : Prop :=
  ∀ node ∈ newcomer.classes.nodes.toList, node.symbol = newcomer.symbol →
    node.arguments.map newcomer.classes.representative ≠
      newcomer.arguments.map newcomer.classes.representative

instance (newcomer : Newcomer) : Decidable newcomer.Settled :=
  decidable_of_iff (∀ argument ∈ newcomer.arguments, ∀ n ≤ newcomer.classes.checkpoints.length,
    (back^[n] newcomer.classes).representative argument =
      newcomer.classes.representative argument) <| by
    refine ⟨fun h argument hmem n => ?_, fun h argument hmem n _ => h argument hmem n⟩
    rcases Nat.le_total n newcomer.classes.checkpoints.length with hle | hle
    · exact h argument hmem n hle
    · rw [iterate_back_of_le hle]
      exact h argument hmem _ (Nat.le_refl _)

instance (newcomer : Newcomer) : Decidable newcomer.Apart :=
  inferInstanceAs (Decidable (∀ node ∈ newcomer.classes.nodes.toList,
    node.symbol = newcomer.symbol → node.arguments.map newcomer.classes.representative ≠
      newcomer.arguments.map newcomer.classes.representative))

theorem Newcomer.apart_iff : Newcomer.Apart ⟨classes, symbol, arguments⟩ ↔
    ∀ id other, classes.term? id = some (symbol, other) →
      other.map classes.representative ≠ arguments.map classes.representative := by
  constructor
  · intro h id other hid
    obtain ⟨node, hnode, heq⟩ := Option.map_eq_some_iff.1 hid
    cases heq
    exact h node (Array.mem_toList_iff.2 (Array.mem_of_getElem? hnode)) rfl
  · intro h node hmem hsymbol
    obtain ⟨id, hid⟩ := Array.getElem?_of_mem (Array.mem_toList_iff.1 hmem)
    exact h id node.arguments (by rw [term?, hid, Option.map_some, hsymbol])

theorem nodeOf?_iterate_back (h : classes.nodeOf? symbol arguments = none) :
    (back^[n] classes).nodeOf? symbol arguments = none := by
  rw [Option.eq_none_iff_forall_ne_some]
  intro id hid
  have hterm := term?_of_nodeOf? hid
  rw [(sameTerms_iterate_back n).term] at hterm
  exact nodeOf?_ne_none hterm h

/-- A new node with settled arguments is found in the classes returned to as if made in them. -/
theorem Steady.iterate_back_internNode (h : classes.Steady)
    (hnone : classes.nodeOf? symbol arguments = none)
    (hsettled : Newcomer.Settled ⟨classes, symbol, arguments⟩) :
    back^[n] (classes.internNode symbol arguments).2 =
      ((back^[n] classes).internNode symbol arguments).2 := by
  rw [h.now.forest.internNode_of_none hnone, h.logged.iterate_back_grow,
    (h.valid n).forest.internNode_of_none (nodeOf?_iterate_back hnone)]
  exact congrArg _ (List.map_congr_left fun argument hmem => (hsettled argument hmem n).symm)

theorem Steady.internNode (h : classes.Steady)
    (harguments : ∀ argument ∈ arguments, argument < classes.size)
    (hsettled : classes.nodeOf? symbol arguments = none →
      Newcomer.Settled ⟨classes, symbol, arguments⟩) :
    (classes.internNode symbol arguments).2.Steady := by
  cases hnode : classes.nodeOf? symbol arguments with
  | some id =>
    rw [TermClasses.internNode, hnode]
    exact h
  | none =>
    have hinterned : ∀ n, (back^[n] classes).Interned
        (back^[n] (classes.internNode symbol arguments).2) := by
      intro n
      rw [h.iterate_back_internNode hnode (hsettled hnode)]
      refine ((h.valid n).internNode symbol fun argument hmem => ?_).1
      rw [size_iterate_back]
      exact harguments argument hmem
    refine ⟨fun n => (hinterned n).valid, fun n a b hab => ?_,
      h.logged.of_le (hinterned 0).size (hinterned 0).log (hinterned 0).checkpoints⟩
    rw [same_iff, (hinterned (n + 1)).representative, (hinterned (n + 1)).representative,
      ← same_iff] at hab
    rw [same_iff, (hinterned n).representative, (hinterned n).representative, ← same_iff]
    exact h.finer n a b hab

/-! ## When the parents stay kept -/

section new

variable (hnone : classes.nodeOf? symbol arguments = none)

include hnone

/-- The parents stay kept, now and in all classes that can be returned to, exactly if the arguments
of the new node are settled. -/
theorem Steady.parentsKept_iff (h : classes.Steady)
    (harguments : ∀ argument ∈ arguments, argument < classes.size) :
    (∀ n, (back^[n] (classes.internNode symbol arguments).2).ParentsKept) ↔
      Newcomer.Settled ⟨classes, symbol, arguments⟩ := by
  constructor
  · intro hkept argument hmem n
    have hkept := hkept n
    have hlt : ∀ argument ∈ arguments, argument < (back^[n] classes).size := by
      rw [size_iterate_back]
      exact harguments
    rw [h.now.forest.internNode_of_none hnone, h.logged.iterate_back_grow,
      (h.valid n).parentsKept_grow hlt] at hkept
    -- the root of the argument there is a root of the present classes, and of the same class
    have hroot := (h.valid n).forest.isRoot_representative (hlt argument hmem)
    obtain ⟨other, hother, heq⟩ := List.mem_map.1 ((hkept _ hroot).2 ⟨argument, hmem, rfl⟩)
    have hsame : classes.same argument ((back^[n] classes).representative argument) := by
      apply h.same_of_iterate n
      rw [same_iff, (h.valid n).forest.representative_root hroot]
    have hroot' := h.now.forest.isRoot_representative (harguments other hother)
    rw [same_iff.1 hsame, ← heq, h.now.forest.representative_root hroot']
  · intro hsettled n
    exact ((h.internNode harguments fun _ => hsettled).valid n).parents

/-- The classes stay closed exactly if no node congruent to the new one is there. -/
theorem Valid.closed_iff_apart (h : classes.Valid) :
    (classes.internNode symbol arguments).2.Closed ↔
      classes.Closed ∧ Newcomer.Apart ⟨classes, symbol, arguments⟩ := by
  rw [h.forest.internNode_of_none hnone]
  generalize arguments.map classes.representative = roots
  have hrepresentative : (classes.grow symbol arguments roots).representative =
      classes.representative := funext h.forest.grow.2
  constructor
  · intro hclosed
    refine ⟨fun p q hpq => ?_, Newcomer.apart_iff.2 fun id other hid heq => ?_⟩
    · obtain ⟨name, xs, ys, hp, hq, hmap⟩ := congruent_iff.1 hpq
      have hsame := hclosed p q (congruent_iff.2 ⟨name, xs, ys, term?_grow_of_term? hp,
        term?_grow_of_term? hq, hrepresentative ▸ hmap⟩)
      rwa [same_iff, hrepresentative, ← same_iff] at hsame
    · -- the new node is alone in its class
      have hlt := h.forest.representative_lt (lt_size_of_term? hid)
      have hsame := hclosed id classes.size (congruent_iff.2 ⟨symbol, other, arguments,
        term?_grow_of_term? hid, by rw [term?_grow, if_pos rfl], hrepresentative ▸ heq⟩)
      rw [same_iff, hrepresentative, representative_of_le (Nat.le_refl _)] at hsame
      exact absurd hsame (Nat.ne_of_lt hlt)
  · rintro ⟨hclosed, hapart⟩ p q hpq
    obtain ⟨name, xs, ys, hp, hq, hmap⟩ := congruent_iff.1 hpq
    rw [hrepresentative] at hmap
    rw [term?_grow] at hp hq
    rw [same_iff, hrepresentative]
    split at hp <;> split at hq
    · rename_i hpnew hqnew
      rw [hpnew, hqnew]
    · cases hp
      exact absurd hmap.symm (Newcomer.apart_iff.1 hapart q ys hq)
    · cases hq
      exact absurd hmap (Newcomer.apart_iff.1 hapart p xs hp)
    · exact same_iff.1 (hclosed p q (congruent_iff.2 ⟨name, xs, ys, hp, hq, hmap⟩))

end new

/-! ## Closed classes on the way back -/

/-- All classes that can be returned to are closed. -/
def SteadyClosed (classes : TermClasses) : Prop :=
  classes.Steady ∧ ∀ n, (back^[n] classes).Closed

theorem SteadyClosed.merge (h : classes.SteadyClosed) (ha : a < classes.size)
    (hb : b < classes.size) : (classes.merge a b).2.SteadyClosed := by
  obtain ⟨hmerged, hclosed, -⟩ := merge_spec h.1.now (h.2 0) ha hb
  refine ⟨h.1.merge ha hb, fun n => ?_⟩
  rcases hmerged.iterate_back with hback | hback
  · rw [hback]
    exact hclosed
  · cases n with
    | zero => exact hclosed
    | succ n => exact hback n ▸ h.2 (n + 1)

theorem SteadyClosed.checkpoint (h : classes.SteadyClosed) : classes.checkpoint.SteadyClosed := by
  have hnodes : classes.checkpoint.nodes = classes.nodes := rfl
  refine ⟨h.1.checkpoint, fun n => ?_⟩
  cases n with
  | zero => exact (h.2 0).congr hnodes
  | succ n => exact h.2 n

theorem SteadyClosed.restored (h : classes.SteadyClosed) : classes.back.SteadyClosed :=
  ⟨h.1.restored, fun n => h.2 (n + 1)⟩

/-- Nodes that are congruent to the new one in classes that can be returned to are so now. -/
theorem Steady.apart_iterate (h : classes.Steady)
    (hapart : Newcomer.Apart ⟨classes, symbol, arguments⟩) (n : Nat) :
    Newcomer.Apart ⟨back^[n] classes, symbol, arguments⟩ := by
  refine Newcomer.apart_iff.2 fun id other hid heq => ?_
  obtain ⟨hlength, hpairs⟩ := map_representative_eq_iff.1 heq
  rw [(sameTerms_iterate_back n).term] at hid
  apply Newcomer.apart_iff.1 hapart id other hid
  exact map_representative_eq_iff.2
    ⟨hlength, fun pair hmem => h.same_of_iterate n (hpairs pair hmem)⟩

theorem SteadyClosed.internNode (h : classes.SteadyClosed)
    (harguments : ∀ argument ∈ arguments, argument < classes.size)
    (hnew : classes.nodeOf? symbol arguments = none →
      Newcomer.Settled ⟨classes, symbol, arguments⟩ ∧
        Newcomer.Apart ⟨classes, symbol, arguments⟩) :
    (classes.internNode symbol arguments).2.SteadyClosed := by
  cases hnode : classes.nodeOf? symbol arguments with
  | some id =>
    rw [TermClasses.internNode, hnode]
    exact h
  | none =>
    obtain ⟨hsettled, hapart⟩ := hnew hnode
    refine ⟨h.1.internNode harguments fun _ => hsettled, fun n => ?_⟩
    rw [h.1.iterate_back_internNode hnode hsettled]
    apply ((h.1.valid n).closed_iff_apart (nodeOf?_iterate_back hnode)).2
    exact ⟨h.2 n, h.1.apart_iterate hapart n⟩

/-! ## Runs -/

/-- The node to be made for a symbol and arguments, if there is none. -/
def newNode (classes : TermClasses) (symbol : String) (arguments : List NodeId) : List Newcomer :=
  match classes.nodeOf? symbol arguments with
  | some _ => []
  | none => [⟨classes, symbol, arguments⟩]

mutual

def newNodes (classes : TermClasses) : Term → List Newcomer
  | .var name => classes.newNode name []
  | .const name => classes.newNode name []
  | .app function ts =>
    classes.newNodesAll ts ++ (classes.internAll ts).2.newNode function (classes.internAll ts).1

def newNodesAll (classes : TermClasses) : List Term → List Newcomer
  | [] => []
  | t :: ts => classes.newNodes t ++ (classes.intern t).2.newNodesAll ts

end

inductive Operation where
  | intern (t : Term)
  | internNode (symbol : String) (arguments : List NodeId)
  | alter (change : Change)

namespace Operation

def apply (classes : TermClasses) : Operation → TermClasses
  | intern t => (classes.intern t).2
  | internNode symbol arguments => (classes.internNode symbol arguments).2
  | alter change => change.apply classes

def newcomers (classes : TermClasses) : Operation → List Newcomer
  | intern t => classes.newNodes t
  | internNode symbol arguments => classes.newNode symbol arguments
  | alter _ => []

def Within (size : Nat) : Operation → Prop
  | intern _ => True
  | internNode _ arguments => ∀ argument ∈ arguments, argument < size
  | alter change => change.Within size

instance (size : Nat) : DecidablePred (Within size)
  | intern _ => inferInstanceAs (Decidable True)
  | internNode _ arguments => inferInstanceAs (Decidable (∀ argument ∈ arguments, argument < size))
  | alter change => inferInstanceAs (Decidable (change.Within size))

end Operation

def stages (classes : TermClasses) : List Operation → List (TermClasses × Operation)
  | [] => []
  | operation :: rest => (classes, operation) :: (operation.apply classes).stages rest

def following (classes : TermClasses) (operations : List Operation) : TermClasses :=
  operations.foldl Operation.apply classes

def made (classes : TermClasses) (operations : List Operation) : List Newcomer :=
  (classes.stages operations).flatMap fun stage => stage.2.newcomers stage.1

/-- A property of classes that each operation keeps, if new nodes are of some kind. -/
structure Invariant (P : TermClasses → Prop) (kind : Newcomer → Prop) : Prop where
  valid : ∀ classes, P classes → classes.Valid
  internNode : ∀ classes symbol arguments, P classes →
    (∀ argument ∈ arguments, argument < classes.size) →
      (classes.nodeOf? symbol arguments = none → kind ⟨classes, symbol, arguments⟩) →
        P (classes.internNode symbol arguments).2
  merge : ∀ classes a b, P classes → a < classes.size → b < classes.size → P (classes.merge a b).2
  checkpoint : ∀ classes, P classes → P classes.checkpoint
  restored : ∀ classes, P classes → P classes.back

section invariant

variable {P : TermClasses → Prop} {kind : Newcomer → Prop}

theorem Invariant.newNode (hinvariant : Invariant P kind) (h : P classes)
    (harguments : ∀ argument ∈ arguments, argument < classes.size)
    (hnew : ∀ newcomer ∈ classes.newNode symbol arguments, kind newcomer) :
    P (classes.internNode symbol arguments).2 := by
  refine hinvariant.internNode classes symbol arguments h harguments fun hnone => hnew _ ?_
  rw [TermClasses.newNode, hnone]
  exact List.mem_singleton_self _

mutual

theorem Invariant.intern (hinvariant : Invariant P kind) {classes : TermClasses} (h : P classes)
    (t : Term) (hnew : ∀ newcomer ∈ classes.newNodes t, kind newcomer) : P (classes.intern t).2 := by
  cases t with
  | var name => exact hinvariant.newNode h (List.forall_mem_nil _) hnew
  | const name => exact hinvariant.newNode h (List.forall_mem_nil _) hnew
  | app function ts =>
    obtain ⟨hall, hnode⟩ := List.forall_mem_append.1 hnew
    have hids := ((hinvariant.valid classes h).internAll ts).2
    exact hinvariant.newNode (Invariant.internAll hinvariant h ts hall) (lt_size_of_idsOf? hids) hnode

theorem Invariant.internAll (hinvariant : Invariant P kind) {classes : TermClasses}
    (h : P classes) (ts : List Term) (hnew : ∀ newcomer ∈ classes.newNodesAll ts, kind newcomer) :
    P (classes.internAll ts).2 := by
  cases ts with
  | nil => exact h
  | cons t ts =>
    obtain ⟨hfirst, hrest⟩ := List.forall_mem_append.1 hnew
    exact Invariant.internAll hinvariant (Invariant.intern hinvariant h t hfirst) ts hrest

end

theorem Invariant.apply (hinvariant : Invariant P kind) (h : P classes) {operation : Operation}
    (hwithin : operation.Within classes.size)
    (hnew : ∀ newcomer ∈ operation.newcomers classes, kind newcomer) :
    P (operation.apply classes) := by
  cases operation with
  | intern t => exact hinvariant.intern h t hnew
  | internNode symbol arguments => exact hinvariant.newNode h hwithin hnew
  | alter change =>
    cases change with
    | merge a b => exact hinvariant.merge classes a b h hwithin.1 hwithin.2
    | checkpoint => exact hinvariant.checkpoint classes h
    | restore => exact hinvariant.restored classes h

theorem Invariant.following (hinvariant : Invariant P kind) (h : P classes)
    {operations : List Operation}
    (hwithin : ∀ stage ∈ classes.stages operations, stage.2.Within stage.1.size)
    (hnew : ∀ newcomer ∈ classes.made operations, kind newcomer) :
    P (classes.following operations) := by
  induction operations generalizing classes with
  | nil => exact h
  | cons operation rest ih =>
    obtain ⟨hfirst, hrest⟩ := List.forall_mem_cons.1 hwithin
    obtain ⟨hnow, hlater⟩ := List.forall_mem_append.1 hnew
    exact ih (hinvariant.apply h hfirst hnow) hrest hlater

end invariant

theorem invariant_steady : Invariant Steady Newcomer.Settled where
  valid _ h := h.now
  internNode _ _ _ h := h.internNode
  merge _ _ _ h := h.merge
  checkpoint _ h := h.checkpoint
  restored _ h := h.restored

theorem invariant_steadyClosed :
    Invariant SteadyClosed fun newcomer => newcomer.Settled ∧ newcomer.Apart where
  valid _ h := h.1.now
  internNode _ _ _ h := h.internNode
  merge _ _ _ h := h.merge
  checkpoint _ h := h.checkpoint
  restored _ h := h.restored

/-- The parents of each class are kept on its root. A merge puts the two nodes in one class, and
leaves no nodes congruent and apart that were not so before. After a new node the parents are kept
in all classes that can be returned to exactly if its arguments are settled, and congruent nodes are
in one class exactly if they were and it is congruent to none. -/
structure InOrder (classes : TermClasses) : Prop where
  parents : classes.ParentsKept
  merged : ∀ a b, a < classes.size → b < classes.size → (classes.merge a b).2.same a b = true ∧
    ∀ p q, (classes.merge a b).2.congruent p q = true →
      classes.congruent p q = true ∨ (classes.merge a b).2.same p q = true
  settled : ∀ symbol arguments, (∀ argument ∈ arguments, argument < classes.size) →
    classes.nodeOf? symbol arguments = none →
      ((∀ n, (back^[n] (classes.internNode symbol arguments).2).ParentsKept) ↔
        Newcomer.Settled ⟨classes, symbol, arguments⟩)
  apart : ∀ symbol arguments, classes.nodeOf? symbol arguments = none →
    ((classes.internNode symbol arguments).2.Closed ↔
      classes.Closed ∧ Newcomer.Apart ⟨classes, symbol, arguments⟩)

theorem Steady.inOrder (h : classes.Steady) : classes.InOrder where
  parents := h.now.parents
  merged _ _ ha hb := ⟨(h.now.merge ha hb).2, fun _ _ => h.now.congruent_of_merge ha hb⟩
  settled _ _ harguments hnone := h.parentsKept_iff hnone harguments
  apart _ _ hnone := h.now.closed_iff_apart hnone

theorem steadyClosed_empty : SteadyClosed {} := by
  refine ⟨steady_empty, fun n => ?_⟩
  rw [iterate_back_empty]
  exact valid_empty.closed_of_representative fun id => representative_of_le (Nat.zero_le id)

/-- Whatever the order of interning, merges, checkpoints and returns, the parents of each class are
kept as long as the arguments of new nodes are settled; and if moreover each new node was congruent
to none, congruent nodes are in one class. -/
theorem parents_kept_of_settled (operations : List Operation)
    (hwithin : ∀ stage ∈ stages {} operations, stage.2.Within stage.1.size)
    (hsettled : ∀ newcomer ∈ made {} operations, newcomer.Settled) :
    (following {} operations).InOrder ∧
      ((∀ newcomer ∈ made {} operations, newcomer.Apart) → (following {} operations).Closed) := by
  refine ⟨(invariant_steady.following steady_empty hwithin hsettled).inOrder, fun hapart => ?_⟩
  have hclosed := invariant_steadyClosed.following steadyClosed_empty hwithin
    fun newcomer hmem => ⟨hsettled newcomer hmem, hapart newcomer hmem⟩
  exact hclosed.2 0

/-- With `a = b` for good, `f(c)` is made, then `g(a)` behind a checkpoint, and after the return
from `b = c` also `f(a)`, before `a = c`. -/
def settledRun : List Operation :=
  [.intern (.const "a"), .intern (.const "b"), .intern (.const "c"), .alter (.merge 0 1),
    .intern (.app "f" [.const "c"]), .alter .checkpoint, .intern (.app "g" [.const "a"]),
    .alter (.merge 1 2), .alter .restore, .internNode "f" [0], .alter (.merge 0 2)]

/-- In the end `f(c)` equals `f(a)`. -/
theorem parents_kept_of_settled_return :
    (∀ stage ∈ stages {} settledRun, stage.2.Within stage.1.size) ∧
    (∀ newcomer ∈ made {} settledRun, newcomer.Settled ∧ newcomer.Apart) ∧
    (following {} settledRun).InOrder ∧ (following {} settledRun).Closed ∧
    (following {} settledRun).same 3 5 = true := by
  have hwithin : ∀ stage ∈ stages {} settledRun, stage.2.Within stage.1.size := by decide +kernel
  have hmade : ∀ newcomer ∈ made {} settledRun, newcomer.Settled ∧ newcomer.Apart := by
    decide +kernel
  obtain ⟨horder, hclosed⟩ := parents_kept_of_settled settledRun hwithin
    fun newcomer hmem => (hmade newcomer hmem).1
  have hclosed := hclosed fun newcomer hmem => (hmade newcomer hmem).2
  exact ⟨hwithin, hmade, horder, hclosed, hclosed 3 5 (by decide +kernel)⟩

/-- While `a = b`, behind a checkpoint, `f(a)` is made; `f(b)` is made after the return. -/
def lateRun : List Operation :=
  [.intern (.const "a"), .intern (.const "b"), .alter .checkpoint, .alter (.merge 0 1),
    .intern (.app "f" [.const "a"]), .alter .restore, .intern (.app "f" [.const "b"]),
    .alter (.merge 0 1)]

def twinRun : List Operation :=
  [.intern (.const "a"), .intern (.const "b"), .intern (.app "f" [.const "a"]),
    .alter (.merge 0 1), .intern (.app "f" [.const "b"]), .alter (.merge 0 1)]

/-- After the return of the first run, `f(a)` is not kept as a parent of the class of `a`. Both runs
end with `f(a)` and `f(b)` in different classes although `a = b`. -/
theorem late_nodes_lost :
    (∀ run ∈ [lateRun, twinRun], ∀ stage ∈ stages {} run, stage.2.Within stage.1.size) ∧
    ¬ (following {} (lateRun.take 6)).ParentsKept ∧
    ∀ run ∈ [lateRun, twinRun], (following {} run).same 0 1 = true ∧ ¬ (following {} run).Closed := by
  refine ⟨by decide +kernel, fun hkept => ?_, ?_⟩
  · have hparent : (following {} (lateRun.take 6)).IsParent 2 0 :=
      ⟨"f", [0], by decide +kernel, 0, List.mem_singleton_self 0, by decide +kernel⟩
    have hroot : (following {} (lateRun.take 6)).pointer? 0 = some 0 := by decide +kernel
    exact absurd ((hkept 0 hroot 2).2 hparent) (by decide +kernel)
  · have hapart : ∀ run ∈ [lateRun, twinRun], (following {} run).same 0 1 = true ∧
        (following {} run).congruent 2 3 = true ∧ (following {} run).same 2 3 = false := by
      decide +kernel
    intro run hmem
    obtain ⟨hsame, hcongruent, hdifferent⟩ := hapart run hmem
    refine ⟨hsame, fun hclosed => ?_⟩
    rw [hclosed 2 3 hcongruent] at hdifferent
    exact Bool.noConfusion hdifferent

end Satisfiability.Equality.TermClasses
