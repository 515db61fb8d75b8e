import Mathlib.Algebra.Order.Field.Rat
import Satisfiability.Proofs.Search.AtomTable
import Satisfiability.Proofs.Search.HeapOrder

/-!
# The most active atom

With exact numbers for activities, a table keeps an account of its atoms: their names, their values,
and what has been added to the activity of each atom, less what was lost by decay (`Account`). The
atom that the table finds after any calls is one of those without a value that are most active
(`runAll?_foremost`).

Of several it is the smallest, as long as no activities were multiplied by zero. The order of the
heap is then an order of activities and atoms, which a positive factor keeps. Zero makes all
activities equal and leaves the heap as it is, so that a greater atom may stay on top
(`decay_zero_misorders`).
-/

namespace Satisfiability.Search

open IndexHeap

namespace Activity

def AtMost (a b : Activity Rat) : Prop := a.weight ≤ b.weight

/-- The first atom is less active than the second, or as active and not smaller. -/
def Behind (a b : Activity Rat) : Prop :=
  a.weight < b.weight ∨ (a.weight = b.weight ∧ b.atom ≤ a.atom)

def decayed (factor : Rat) (a : Activity Rat) : Activity Rat := { a with weight := a.weight * factor }

theorem above_iff (a b : Activity Rat) : Priority.above a b = true ↔
    b.weight < a.weight ∨ (a.weight = b.weight ∧ a.atom < b.atom) := by
  show (if decide (a.weight = b.weight) then decide (a.atom < b.atom)
    else decide (b.weight < a.weight)) = true ↔ _
  by_cases heq : a.weight = b.weight
  · simp [heq]
  · simp [heq]

theorem follows_atMost : Priority.Follows AtMost := by
  refine ⟨fun a b c => le_trans, fun a b habove => ?_, fun a b hnot => ?_⟩
  · rcases (above_iff a b).1 habove with hlt | ⟨heq, -⟩
    · exact le_of_lt hlt
    · exact le_of_eq heq.symm
  · rw [Bool.eq_false_iff, ne_eq, above_iff, not_or] at hnot
    exact not_lt.1 hnot.1

theorem follows_behind : Priority.Follows Behind := by
  refine ⟨fun a b c hab hbc => ?_, fun a b habove => ?_, fun a b hnot => ?_⟩
  · rcases hab with hab | ⟨hab, hatom⟩
    · rcases hbc with hbc | ⟨hbc, -⟩
      · exact Or.inl (lt_trans hab hbc)
      · exact Or.inl (hbc ▸ hab)
    · rcases hbc with hbc | ⟨hbc, hatom'⟩
      · exact Or.inl (hab ▸ hbc)
      · exact Or.inr ⟨hab.trans hbc, Nat.le_trans hatom' hatom⟩
  · rcases (above_iff a b).1 habove with hlt | ⟨heq, hlt⟩
    · exact Or.inl hlt
    · exact Or.inr ⟨heq.symm, Nat.le_of_lt hlt⟩
  · rw [Bool.eq_false_iff, ne_eq, above_iff, not_or, not_and] at hnot
    rcases lt_or_eq_of_le (not_lt.1 hnot.1) with hlt | heq
    · exact Or.inl hlt
    · exact Or.inr ⟨heq, Nat.le_of_not_lt (hnot.2 heq)⟩

theorem AtMost.decayed {factor : Rat} (hfactor : 0 ≤ factor) {a b : Activity Rat} (h : AtMost a b) :
    AtMost (a.decayed factor) (b.decayed factor) := mul_le_mul_of_nonneg_right h hfactor

theorem Behind.decayed {factor : Rat} (hfactor : 0 < factor) {a b : Activity Rat} (h : Behind a b) :
    Behind (a.decayed factor) (b.decayed factor) := by
  rcases h with hlt | ⟨heq, hatom⟩
  -- only a positive factor keeps apart what it multiplies
  · exact Or.inl (mul_lt_mul_of_pos_right hlt hfactor)
  · exact Or.inr ⟨congrArg (· * factor) heq, hatom⟩

end Activity

namespace AtomTable

structure Account where
  names : List String := []
  weight : Atom → Rat := fun _ => 0
  value? : Atom → Option Bool := fun _ => none

def Account.create (account : Account) (name : String) : Account :=
  if greatestAtom < account.names.length then account
  else { account with names := account.names ++ [name] }

inductive Operation where
  | fresh (name : String)
  | named (name : String)
  | set (literal : Literal) (level position : Nat)
  | drop (atom : Atom)
  | bump (atom : Atom) (amount : Rat)
  | decay (factor : Rat)
  | choose

namespace Operation

/-- The call is about atoms that there are, and no activity changes its sign by decay. -/
def Allowed (atoms : Nat) : Operation → Prop
  | fresh _ => True
  | named _ => True
  | set literal _ _ => literal.atom < atoms
  | drop atom => atom < atoms
  | bump atom _ => atom < atoms
  | decay factor => 0 ≤ factor
  | choose => True

/-- The table after the call. An atom that is refused changes nothing. -/
def run? (table : AtomTable Rat) : Operation → Option (AtomTable Rat)
  | fresh name => if table.isFull then some table else (table.fresh? name).map Prod.snd
  | named name =>
    if table.isFull ∧ table.atomOf? name = none then some table
    else (table.freshOrGet? name).map Prod.snd
  | set literal level position => table.setValue? literal level position
  | drop atom => table.dropValue? atom
  | bump atom amount => table.bump? amount atom
  | decay factor => some (table.decay factor)
  | choose => (table.mostActive?).map Prod.snd

def after (account : Account) : Operation → Account
  | fresh name => account.create name
  | named name => if name ∈ account.names then account else account.create name
  | set literal _ _ => { account with
      value? := fun atom => if atom = literal.atom then some literal.positive else account.value? atom }
  | drop atom => { account with
      value? := fun other => if other = atom then none else account.value? other }
  | bump atom amount => { account with
      weight := fun other => if other = atom then account.weight other + amount else account.weight other }
  | decay factor => { account with weight := fun atom => account.weight atom * factor }
  | choose => account

-- Decay is the one call that changes values without moving any.
def Keeps (le : Activity Rat → Activity Rat → Prop) : Operation → Prop
  | decay factor => ∀ a b, le a b → le (a.decayed factor) (b.decayed factor)
  | _ => True

end Operation

def AllAllowed (account : Account) : List Operation → Prop
  | [] => True
  | call :: rest => call.Allowed account.names.length ∧ AllAllowed (call.after account) rest

def runAll? (calls : List Operation) (table : AtomTable Rat) : Option (AtomTable Rat) :=
  calls.foldlM Operation.run? table

def accountOf (calls : List Operation) (account : Account) : Account :=
  calls.foldl Operation.after account

variable {table table' : AtomTable Rat} {account : Account}

/-- The table is as the account says. -/
structure Reflects (table : AtomTable Rat) (account : Account) : Prop where
  coherent : table.Coherent
  size : table.count = account.names.length
  name : ∀ atom, table.name? atom = account.names[atom]?
  value : ∀ atom, table.valuation atom = account.value? atom
  activity : ∀ atom < table.count, table.activities.value? atom = some ⟨account.weight atom, atom⟩
  unused : ∀ atom, table.count ≤ atom → account.weight atom = 0

theorem reflects_empty : ({} : AtomTable Rat).Reflects {} :=
  ⟨coherent_empty, rfl, fun _ => rfl, fun _ => rfl, fun _ h => absurd h (Nat.not_lt_zero _),
    fun _ _ => rfl⟩

def KeepsOrder (le : Activity Rat → Activity Rat → Prop) (table table' : AtomTable Rat) : Prop :=
  Ordered le 0 table.activities.key? → Ordered le 0 table'.activities.key?

/-- A call has a result, which is as the account says after the call, and is in order in each order
that the comparison of activities follows and the call keeps. -/
def Succeeds (table : AtomTable Rat) (account : Account) (call : Operation) : Prop :=
  ∃ table', call.run? table = some table' ∧ table'.Reflects (call.after account) ∧
    ∀ le, Priority.Follows le → call.Keeps le → KeepsOrder le table table'

/-! ## Calls -/

theorem Reflects.lt_values (h : table.Reflects account) {atom : Atom}
    (hatom : atom < account.names.length) : atom < table.activities.values.size := by
  rw [h.coherent.sizes]
  exact Nat.lt_of_lt_of_eq hatom h.size.symm

theorem Coherent.fresh?_activities (hcoherent : table.Coherent) {name : String} {atom : Atom}
    (hrun : table.fresh? name = some (atom, table')) :
    (∀ other, table'.activities.value? other =
      if other = table.count then some ⟨0, table.count⟩ else table.activities.value? other) ∧
    ∀ le, Priority.Follows le → KeepsOrder le table table' := by
  rw [fresh?, if_neg (room_of_fresh? hrun)] at hrun
  -- the activity is stored first, and its atom put on the heap then
  obtain ⟨⟨new, added⟩, hadd, hrest⟩ := Option.bind_eq_some_iff.1 hrun
  obtain ⟨⟨put, activities⟩, hactivate, hrest⟩ := Option.bind_eq_some_iff.1 hrest
  cases hrest
  obtain ⟨_, _, hadd', hinv, hadded, -⟩ :=
    hcoherent.inverse.add?_active table.count ⟨Scalar.zero, table.count⟩
  rw [hadd] at hadd'
  cases hadd'
  have hplace : table.count < added.count := by
    rw [IndexHeap.count, hadded]
    exact Nat.lt_of_lt_of_eq (Nat.lt_of_lt_of_le (Nat.lt_succ_self _) (Nat.le_max_right _ _))
      (count_grown table.count _).symm
  obtain ⟨_, _, hactivate', -, hvalues, -⟩ := hinv.activate?_active hplace
  rw [hactivate] at hactivate'
  cases hactivate'
  refine ⟨fun other => ?_, fun le hle hordered => ?_⟩
  · have hgrown := value?_grown (h := table.activities) table.count ⟨Scalar.zero, table.count⟩ other
    show activities.values[other]? = _
    rw [hvalues, hadded]
    refine hgrown.trans ?_
    rcases Nat.lt_trichotomy other table.count with hlt | rfl | hgt
    · have hvalue : other < table.activities.values.size := by rw [hcoherent.sizes]; exact hlt
      rw [if_neg (Nat.ne_of_lt hlt), if_pos hlt, if_neg (Nat.ne_of_lt hlt), IndexHeap.value?,
        Array.getElem?_eq_getElem hvalue]
      rfl
    · rw [if_pos rfl, if_pos rfl]
      rfl
    · rw [if_neg (Nat.ne_of_gt hgt), if_neg (Nat.lt_asymm hgt), if_neg (Nat.ne_of_gt hgt)]
  · exact hinv.activate?_ordered hle (hcoherent.inverse.add?_ordered hle hordered hadd) hactivate

theorem Reflects.isFull_iff (h : table.Reflects account) :
    table.isFull ↔ greatestAtom < account.names.length := by
  rw [AtomTable.isFull_iff, h.size]

theorem Reflects.fresh (h : table.Reflects account) (name : String) :
    table.Succeeds account (.fresh name) := by
  by_cases hfull : table.isFull
  · -- no atom is left, and neither the table nor the account changes
    have hafter : Operation.after account (.fresh name) = account := if_pos (h.isFull_iff.1 hfull)
    refine ⟨table, if_pos hfull, ?_, fun _ _ _ => id⟩
    rw [hafter]
    exact h
  have hafter : Operation.after account (.fresh name) =
      { account with names := account.names ++ [name] } := if_neg (h.isFull_iff.not.1 hfull)
  obtain ⟨table', hrun, hcoherent, hentries⟩ := h.coherent.fresh?_spec hfull name
  obtain ⟨hactivity, hordered⟩ := h.coherent.fresh?_activities hrun
  have hcount : table'.count = table.count + 1 := by
    rw [AtomTable.count, hentries]
    exact Array.size_push ..
  have hcall : Operation.run? table (.fresh name) = some table' := by
    show (if table.isFull then some table else (table.fresh? name).map Prod.snd) = some table'
    rw [if_neg hfull, hrun]
    rfl
  refine ⟨table', hcall, hafter ▸ ⟨hcoherent, ?_, fun atom => ?_, fun atom => ?_,
    fun atom hatom => ?_, fun atom hatom => ?_⟩, fun le hle _ => hordered le hle⟩
  · show table'.count = (account.names ++ [name]).length
    rw [hcount, h.size, List.length_append]
    rfl
  · show table'.name? atom = (account.names ++ [name])[atom]?
    have hname := h.name atom
    have hsize := h.size
    unfold AtomTable.count at hsize
    rw [name?] at hname ⊢
    rw [hentries, Array.getElem?_push, List.getElem?_append, List.getElem?_singleton, ← hname, ← hsize]
    rcases Nat.lt_trichotomy atom table.entries.size with hlt | rfl | hgt
    · rw [if_neg (Nat.ne_of_lt hlt), if_pos hlt]
    · rw [if_pos rfl, if_neg (Nat.lt_irrefl _), if_pos (Nat.sub_self _)]
      rfl
    · rw [if_neg (Nat.ne_of_gt hgt), if_neg (Nat.lt_asymm hgt), if_neg (Nat.sub_ne_zero_of_lt hgt),
        Array.getElem?_eq_none (Nat.le_of_lt hgt)]
      rfl
  · rw [valuation, placement?_of_push hentries]
    exact h.value atom
  · rw [hactivity]
    rcases Nat.lt_or_eq_of_le (Nat.le_of_lt_succ (hcount ▸ hatom)) with hlt | rfl
    · rw [if_neg (Nat.ne_of_lt hlt), h.activity atom hlt]
    · -- the account has no activity yet for an atom that was not there
      rw [if_pos rfl, ← h.unused table.count (Nat.le_refl _)]
  · exact h.unused atom (by omega)

theorem Reflects.named (h : table.Reflects account) (name : String) :
    table.Succeeds account (.named name) := by
  -- a name in use costs nothing, even if the table is full
  cases hfound : table.atomOf? name with
  | some atom =>
    have hrun : Operation.run? table (.named name) = some table := by
      have hnot : ¬ (table.isFull ∧ table.atomOf? name = none) := by
        rw [hfound]
        exact fun hboth => Option.some_ne_none _ hboth.2
      rw [Operation.run?, if_neg hnot, freshOrGet?, hfound]
      rfl
    have hmem : name ∈ account.names :=
      List.mem_iff_getElem?.2 ⟨atom, by rw [← h.name, name?_of_lastNamed? hfound]⟩
    refine ⟨table, hrun, ?_, fun _ _ _ => id⟩
    rw [Operation.after, if_pos hmem]
    exact h
  | none =>
    have hrun : Operation.run? table (.named name) = Operation.run? table (.fresh name) := by
      simp only [Operation.run?, freshOrGet?, hfound, and_true]
    have hmem : name ∉ account.names := by
      intro hmem
      obtain ⟨atom, hatom⟩ := List.mem_iff_getElem?.1 hmem
      have hlt : atom < table.count := by
        rw [h.size]
        exact (List.getElem?_eq_some_iff.1 hatom).1
      exact name?_ne_of_lastNamed? hfound hlt (by rw [h.name, hatom])
    obtain ⟨table', hfresh, hreflects, hordered⟩ := h.fresh name
    refine ⟨table', hrun.trans hfresh, ?_, fun le hle _ => hordered le hle trivial⟩
    rw [Operation.after, if_neg hmem]
    exact hreflects

theorem Reflects.revalued (h : table.Reflects account) (hcoherent : table'.Coherent)
    (hcount : table'.count = table.count) (hname : ∀ atom, table'.name? atom = table.name? atom)
    {value? : Atom → Option Bool} (hvalue : ∀ atom, table'.valuation atom = value? atom)
    (hactivity : ∀ atom, table'.activities.value? atom = table.activities.value? atom) :
    table'.Reflects { account with value? } := by
  refine ⟨hcoherent, hcount.trans h.size, fun atom => (hname atom).trans (h.name atom), hvalue,
    fun atom hatom => ?_, fun atom hatom => h.unused atom (hcount ▸ hatom)⟩
  rw [hactivity]
  exact h.activity atom (hcount ▸ hatom)

theorem Reflects.set (h : table.Reflects account) {literal : Literal}
    (hatom : literal.atom < account.names.length) (level position : Nat) :
    table.Succeeds account (.set literal level position) := by
  obtain ⟨table', hrun, hcoherent, hcount, hname, hplacement⟩ :=
    h.coherent.setValue?_spec (h.size ▸ hatom) level position
  obtain ⟨_, -, rfl⟩ := Option.map_eq_some_iff.1 hrun
  refine ⟨_, hrun, h.revalued hcoherent hcount hname (fun atom => ?_) fun _ => rfl,
    fun _ _ _ => id⟩
  rw [← h.value, valuation, hplacement]
  split <;> rfl

theorem Reflects.drop (h : table.Reflects account) {atom : Atom}
    (hatom : atom < account.names.length) : table.Succeeds account (.drop atom) := by
  obtain ⟨table', hrun, hcoherent, hcount, hname, hplacement⟩ :=
    h.coherent.dropValue?_spec (h.size ▸ hatom)
  obtain ⟨placed, hplace, hrest⟩ := Option.bind_eq_some_iff.1 hrun
  obtain ⟨_, -, rfl⟩ := Option.map_eq_some_iff.1 hplace
  obtain ⟨⟨put, activities⟩, hactivate, hrest⟩ := Option.bind_eq_some_iff.1 hrest
  cases hrest
  obtain ⟨_, _, hactivate', -, hvalues, -⟩ :=
    h.coherent.inverse.activate?_active (h.lt_values hatom)
  rw [hactivate] at hactivate'
  cases hactivate'
  refine ⟨_, hrun, h.revalued hcoherent hcount hname (fun other => ?_) fun other => ?_,
    fun le hle _ hordered => h.coherent.inverse.activate?_ordered hle hordered hactivate⟩
  · rw [← h.value, valuation, hplacement]
    split <;> rfl
  · rw [IndexHeap.value?, hvalues]
    rfl

theorem Reflects.bump (h : table.Reflects account) {atom : Atom}
    (hatom : atom < account.names.length) (amount : Rat) :
    table.Succeeds account (.bump atom amount) := by
  obtain ⟨table', hrun, hcoherent, hsame⟩ := h.coherent.bump?_spec amount (h.size ▸ hatom)
  obtain ⟨activities, hmodify, rfl⟩ := Option.map_eq_some_iff.1 hrun
  obtain ⟨_, hmodify', -, hcount, hvalue, -⟩ := h.coherent.inverse.modify?_active
    (h.lt_values hatom) fun a => { a with weight := a.weight + amount }
  rw [hmodify] at hmodify'
  cases hmodify'
  refine ⟨_, hrun, ⟨hcoherent, h.size, h.name, h.value, fun other hother => ?_,
    fun other hother => ?_⟩, fun le hle _ hordered =>
      h.coherent.inverse.modify?_ordered hle hordered hmodify⟩
  · rw [hvalue, h.activity other hother]
    by_cases heq : other = atom
    · rw [if_pos heq]
      show some (Activity.mk (account.weight other + amount) other) =
        some ⟨if other = atom then account.weight other + amount else account.weight other, other⟩
      rw [if_pos heq]
    · rw [if_neg heq]
      show some (Activity.mk (account.weight other) other) =
        some ⟨if other = atom then account.weight other + amount else account.weight other, other⟩
      rw [if_neg heq]
  · have hne : other ≠ atom := Nat.ne_of_gt (Nat.lt_of_lt_of_le hatom (h.size ▸ hother))
    show (if other = atom then account.weight other + amount else account.weight other) = 0
    rw [if_neg hne]
    exact h.unused other hother

theorem Reflects.decay (h : table.Reflects account) (factor : Rat) :
    table.Succeeds account (.decay factor) := by
  obtain ⟨hcoherent, -⟩ := h.coherent.decay factor
  -- no atom is moved, so it is only orders kept by the factor that are kept by the call
  refine ⟨_, rfl, ⟨hcoherent, h.size, h.name, h.value, fun atom hatom => ?_, fun atom hatom => ?_⟩,
    fun le _ hkeeps hordered => hordered.mapValues hkeeps⟩
  · show (table.activities.values.map _)[atom]? = _
    rw [Array.getElem?_map, show table.activities.values[atom]? = _ from h.activity atom hatom]
    rfl
  · show account.weight atom * factor = 0
    rw [h.unused atom hatom, zero_mul]

theorem mostActiveWithin?_top (hinv : table.activities.Inverse) {steps : Nat} {found : Option Atom}
    (hrun : table.mostActiveWithin? steps = some (found, table')) :
    table'.activities.values = table.activities.values ∧
      (∀ atom, found = some atom → table'.activities.top? = some atom) ∧
      ∀ le, Priority.Follows le → KeepsOrder le table table' := by
  -- each step takes one atom with a value off the top
  induction steps generalizing table with
  | zero =>
    cases hrun
    exact ⟨rfl, fun _ h => absurd h (by simp), fun _ _ => id⟩
  | succ steps ih =>
    unfold mostActiveWithin? at hrun
    split at hrun
    · cases hrun
      exact ⟨rfl, fun _ h => absurd h (by simp), fun _ _ => id⟩
    · rename_i atom htop
      split at hrun
      · cases hrun
        exact ⟨rfl, fun other h => Option.some.inj h ▸ htop, fun _ _ => id⟩
      · obtain ⟨⟨removed, activities⟩, hremove, hrest⟩ := Option.bind_eq_some_iff.1 hrun
        obtain ⟨_, _, hremove', hinv', hvalues, -, -⟩ := hinv.remove?_active (hinv.lt_of_heap htop)
        rw [hremove] at hremove'
        cases hremove'
        obtain ⟨hvalues', htop', hordered⟩ := @ih { table with activities } hinv' hrest
        refine ⟨hvalues'.trans hvalues, htop', fun le hle hstart => hordered le hle ?_⟩
        exact hinv.remove?_ordered hle hstart hremove

theorem Reflects.choose (h : table.Reflects account) : table.Succeeds account .choose := by
  obtain ⟨found, table', hrun, hcoherent, hsame, -⟩ := h.coherent.mostActive?_spec
  obtain ⟨hvalues, -, hordered⟩ := mostActiveWithin?_top h.coherent.inverse hrun
  refine ⟨table', by rw [Operation.run?, hrun]; rfl, h.revalued hcoherent hsame.count hsame.name
    (fun atom => ?_) fun atom => ?_, fun le hle _ => hordered le hle⟩
  · rw [hsame.valuation, h.value]
  · rw [IndexHeap.value?, hvalues]
    rfl

theorem Reflects.succeeds (h : table.Reflects account) {call : Operation}
    (hallowed : call.Allowed account.names.length) : table.Succeeds account call := by
  cases call with
  | fresh name => exact h.fresh name
  | named name => exact h.named name
  | set literal level position => exact h.set hallowed level position
  | drop atom => exact h.drop hallowed
  | bump atom amount => exact h.bump hallowed amount
  | decay factor => exact h.decay factor
  | choose => exact h.choose

/-! ## Runs -/

theorem Reflects.runAll? (h : table.Reflects account) {calls : List Operation}
    (hallowed : AllAllowed account calls) : ∃ table', AtomTable.runAll? calls table = some table' ∧
      table'.Reflects (accountOf calls account) ∧
      ∀ le, Priority.Follows le → (∀ call ∈ calls, call.Keeps le) → KeepsOrder le table table' := by
  induction calls generalizing table account with
  | nil => exact ⟨table, rfl, h, fun _ _ _ => id⟩
  | cons call rest ih =>
    obtain ⟨table₁, hrun, hreflects, hordered⟩ := h.succeeds hallowed.1
    obtain ⟨table', hrest, hreflects', hordered'⟩ := ih hreflects hallowed.2
    refine ⟨table', ?_, hreflects', fun le hle hkeeps => ?_⟩
    · rw [AtomTable.runAll?, List.foldlM_cons, hrun]
      exact hrest
    · have hfirst := hordered le hle (hkeeps call List.mem_cons_self)
      have hlater := hordered' le hle fun later hmem => hkeeps later (List.mem_cons_of_mem _ hmem)
      exact fun hstart => hlater (hfirst hstart)

def Account.Open (account : Account) (atom : Atom) : Prop :=
  atom < account.names.length ∧ account.value? atom = none

/-- An atom without a value is found if there is one, and no atom without a value is more active. -/
def Account.Foremost (account : Account) : Option Atom → Prop
  | none => ∀ atom, ¬ account.Open atom
  | some atom => account.Open atom ∧ ∀ other, account.Open other →
    account.weight other ≤ account.weight atom

/-- No smaller atom without a value is as active. -/
def Account.First (account : Account) (found : Option Atom) : Prop :=
  ∀ atom, found = some atom → ∀ other, account.Open other →
    account.weight other = account.weight atom → atom ≤ other

theorem Reflects.open_iff (h : table.Reflects account) {atom : Atom} :
    account.Open atom ↔ atom < table.count ∧ table.placement? atom = none := by
  rw [Account.Open, ← h.size, ← h.value, valuation_eq_none]

/-- In any order in which the heap is, no activity of an atom without a value is above that of the
atom found. -/
theorem Reflects.mostActive? (h : table.Reflects account) :
    ∃ found table', table.mostActive? = some (found, table') ∧
      match (motive := Option Atom → Prop) found with
      | none => ∀ atom, ¬ account.Open atom
      | some atom => account.Open atom ∧ ∀ other, account.Open other →
        ∀ le, Priority.Follows le → Ordered le 0 table.activities.key? →
          le ⟨account.weight other, other⟩ ⟨account.weight atom, atom⟩ := by
  obtain ⟨found, table', hrun, hcoherent, hsame, hfound⟩ := h.coherent.mostActive?_spec
  obtain ⟨hvalues, htop, hordered⟩ := mostActiveWithin?_top h.coherent.inverse hrun
  refine ⟨found, table', hrun, ?_⟩
  cases found with
  | none => exact fun atom hopen => hfound atom (h.open_iff.1 hopen).1 (h.open_iff.1 hopen).2
  | some atom =>
    refine ⟨h.open_iff.2 hfound, fun other hopen le hle hstart => ?_⟩
    obtain ⟨hlt, hnone⟩ := h.open_iff.1 hopen
    -- the other atom is still on the heap
    obtain ⟨place, hplace⟩ := Array.mem_iff_getElem?.1 <| hcoherent.inverse.isActive_iff_mem.1 <|
      hcoherent.active other (hsame.count ▸ hlt) ((hsame.placement other).trans hnone)
    have hkey : ∀ (place : Nat) (index : Atom), table'.activities.heap[place]? = some index →
        index < table.count → table'.activities.key? place = some ⟨account.weight index, index⟩ := by
      intro place index hindex hcount
      rw [key?, hindex, Option.bind_some, hvalues]
      exact h.activity index hcount
    exact hcoherent.inverse.atMost_top hle (hordered le hle hstart) place _ _
      (hkey place other hplace hlt) (hkey 0 atom (htop atom rfl) hfound.1)

theorem factor_nonneg {account : Account} {calls : List Operation} (hallowed : AllAllowed account calls)
    {factor : Rat} (hmem : .decay factor ∈ calls) : 0 ≤ factor := by
  induction calls generalizing account with
  | nil => exact absurd hmem List.not_mem_nil
  | cons call rest ih =>
    rcases List.mem_cons.1 hmem with rfl | hmem
    · exact hallowed.1
    · exact ih hallowed.2 hmem

theorem keeps_of_decay {le : Activity Rat → Activity Rat → Prop} {calls : List Operation}
    (hdecay : ∀ factor, .decay factor ∈ calls → ∀ a b, le a b → le (a.decayed factor) (b.decayed factor)) :
    ∀ call ∈ calls, call.Keeps le := by
  intro call hmem
  cases call with
  | decay factor => exact hdecay factor hmem
  | _ => trivial

/-- After any calls that are allowed the table finds a most active atom without a value, and the
smallest one if no factor was zero. -/
theorem runAll?_foremost (calls : List Operation) (hallowed : AllAllowed {} calls) :
    ∃ table found table', runAll? calls {} = some table ∧ table.mostActive? = some (found, table') ∧
      (∀ atom < table.count, table.activity? atom = some ((accountOf calls {}).weight atom)) ∧
      (accountOf calls {}).Foremost found ∧
      ((∀ factor, .decay factor ∈ calls → factor ≠ 0) → (accountOf calls {}).First found) := by
  obtain ⟨table, hrun, hreflects, hordered⟩ := reflects_empty.runAll? hallowed
  obtain ⟨found, table', hmost, hfound⟩ := hreflects.mostActive?
  have hempty : ∀ le, Ordered le 0 ({} : AtomTable Rat).activities.key? :=
    fun le place child _ _ x _ hx _ => absurd (lt_of_key? hx) (Nat.not_lt_zero child)
  -- activities stay in order with any factors, and ties only without a zero
  have hatMost : ∀ call ∈ calls, call.Keeps Activity.AtMost :=
    keeps_of_decay fun factor hmem a b => Activity.AtMost.decayed (factor_nonneg hallowed hmem)
  have hweight := hordered _ Activity.follows_atMost hatMost (hempty _)
  refine ⟨table, found, table', hrun, hmost, fun atom hatom => ?_, ?_, fun hfactors => ?_⟩
  · rw [activity?, hreflects.activity atom hatom]
    rfl
  · cases found with
    | none => exact hfound
    | some atom =>
      exact ⟨hfound.1, fun other hopen => hfound.2 other hopen _ Activity.follows_atMost hweight⟩
  · have hbehind : ∀ call ∈ calls, call.Keeps Activity.Behind :=
      keeps_of_decay fun factor hmem a b => Activity.Behind.decayed <|
        lt_of_le_of_ne (factor_nonneg hallowed hmem) (hfactors factor hmem).symm
    have hatoms := hordered _ Activity.follows_behind hbehind (hempty _)
    rintro atom rfl other hopen heq
    rcases hfound.2 other hopen _ Activity.follows_behind hatoms with hlt | ⟨-, hle⟩
    · exact absurd heq (ne_of_lt hlt)
    · exact hle

/-- The second of three atoms is bumped, valued and looked past; its value is dropped after a decay.
-/
def dropAfterDecay : List Operation :=
  [.named "p", .named "q", .fresh "r", .bump 1 1, .set ⟨1, true⟩ 1 0, .choose, .decay (1 / 2), .drop 1]

theorem runAll?_foremost_dropAfterDecay : AllAllowed {} dropAfterDecay ∧
    (∀ factor, .decay factor ∈ dropAfterDecay → factor ≠ 0) ∧
    ∃ table found table', runAll? dropAfterDecay {} = some table ∧
      table.mostActive? = some (found, table') ∧
      (∀ atom < table.count, table.activity? atom = some ((accountOf dropAfterDecay {}).weight atom)) ∧
      (accountOf dropAfterDecay {}).Foremost found ∧ (accountOf dropAfterDecay {}).First found := by
  have hallowed : AllAllowed {} dropAfterDecay := by
    simp [dropAfterDecay, AllAllowed, Operation.Allowed, Operation.after, Account.create, greatestAtom,
      halfWordCount]
  have hfactors : ∀ factor, .decay factor ∈ dropAfterDecay → factor ≠ 0 := by
    intro factor hmem
    simp only [dropAfterDecay, List.mem_cons, List.not_mem_nil, reduceCtorEq, Operation.decay.injEq,
      false_or, or_false] at hmem
    rw [hmem]
    decide +kernel
  obtain ⟨table, found, table', hrun, hmost, hactivity, hforemost, hfirst⟩ :=
    runAll?_foremost dropAfterDecay hallowed
  exact ⟨hallowed, hfactors, table, found, table', hrun, hmost, hactivity, hforemost, hfirst hfactors⟩

/-- Two atoms, of which the second is the more active one until both activities become zero. -/
def bumpedThenZeroed : List Operation :=
  [.named "p", .named "q", .bump 1 1, .decay 0]

theorem decay_zero_misorders : AllAllowed {} bumpedThenZeroed ∧
    ((runAll? bumpedThenZeroed {}).bind mostActive?).map Prod.fst = some (some 1) ∧
    ¬ (accountOf bumpedThenZeroed {}).First (some 1) := by
  refine ⟨?_, ?_, ?_⟩
  · simp [bumpedThenZeroed, AllAllowed, Operation.Allowed, Operation.after, Account.create, greatestAtom,
      halfWordCount]
  · decide +kernel
  · intro hfirst
    exact absurd (hfirst 1 rfl 0 ⟨by decide, rfl⟩ (by decide +kernel)) (by decide)

end AtomTable

end Satisfiability.Search
