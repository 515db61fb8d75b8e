import Mathlib.Data.List.Nodup
import Mathlib.Data.List.Perm.Subperm
import Mathlib.Data.String.Basic
import Mathlib.Order.Bounds.Basic
import Satisfiability.FreshNames

/-!
# Names drawn from a source

The counter of a source only rises, and different numbers give different names, so that no name is
drawn twice. For the same reason the search for a name that is not avoided comes to an end
(`nextFree_not_avoided`). The search needs no bound on its rounds: left to itself it stops where
`fresh` does (`finds_iff`), whatever calls were made on the source before (`fresh_found`). The
counter has no greatest value here; one call moves it by the number of rounds.
-/

namespace Satisfiability.FreshNames

variable {names last : FreshNames} {name stem : String} {rounds : Nat}

theorem eq_of_nameAt_eq {m n : Nat} (h : nameAt stem m = nameAt stem n) : m = n := by
  have hdigits : Nat.toDigits 10 m = Nat.toDigits 10 n := by
    have hrepr := (String.append_right_inj stem).1 h
    rw [Nat.repr_eq_ofList_toDigits, Nat.repr_eq_ofList_toDigits] at hrepr
    exact String.ofList_injective hrepr
  rw [← @Nat.ofDigitChars_toDigits 10 m (by decide) (by decide), hdigits,
    Nat.ofDigitChars_toDigits (by decide) (by decide)]

theorem lt_nextFree (stem : String) (avoided : List String) (tries n : Nat) :
    n < nextFree stem avoided tries n := by
  induction tries generalizing n with
  | zero => exact Nat.lt_succ_self n
  | succ tries ih =>
    unfold nextFree
    split
    · exact Nat.lt_of_succ_lt (ih (n + 1))
    · exact Nat.lt_succ_self n

theorem avoided_of_lt_nextFree {avoided : List String} {tries n k : Nat} (hlt : n < k)
    (h : k < nextFree stem avoided tries n) : nameAt stem k ∈ avoided := by
  induction tries generalizing n with
  | zero =>
    rw [nextFree] at h
    omega
  | succ tries ih =>
    unfold nextFree at h
    split at h
    · rename_i hnext
      rcases Nat.lt_or_eq_of_le hlt with hlt | rfl
      · exact ih hlt h
      · exact List.contains_iff_mem.1 hnext
    · omega

theorem nextFree_free_or_last (stem : String) (avoided : List String) (tries n : Nat) :
    nameAt stem (nextFree stem avoided tries n) ∉ avoided ∨
      nextFree stem avoided tries n = n + tries + 1 := by
  induction tries generalizing n with
  | zero => exact Or.inr rfl
  | succ tries ih =>
    unfold nextFree
    split
    · refine (ih (n + 1)).imp_right fun heq => ?_
      omega
    · rename_i hfree
      exact Or.inl fun hmem => hfree (List.contains_iff_mem.2 hmem)

/-- With as many tries as there are names to avoid, a free name is found: the names that the counter
reaches differ from each other, and one more than those to avoid cannot all be among them. -/
theorem nextFree_not_avoided {avoided : List String} {tries : Nat} (h : avoided.length ≤ tries)
    (n : Nat) : nameAt stem (nextFree stem avoided tries n) ∉ avoided := by
  intro hmem
  have hlast := (nextFree_free_or_last stem avoided tries n).resolve_left (absurd hmem)
  have hnodup : ((List.range' (n + 1) (tries + 1)).map (nameAt stem)).Nodup :=
    (List.nodup_range' ..).map fun _ _ => eq_of_nameAt_eq
  have hsubset : (List.range' (n + 1) (tries + 1)).map (nameAt stem) ⊆ avoided := by
    intro name hname
    obtain ⟨k, hk, rfl⟩ := List.mem_map.1 hname
    rw [List.mem_range'_1] at hk
    rcases Nat.lt_or_ge k (nextFree stem avoided tries n) with hlt | hge
    · exact avoided_of_lt_nextFree (by omega) hlt
    · rwa [show k = nextFree stem avoided tries n by omega]
  have hlength := (List.subperm_of_subset hnodup hsubset).length_le
  rw [List.length_map, List.length_range'] at hlength
  omega

theorem fresh_not_avoided (names : FreshNames) : names.fresh.1 ∉ names.avoided :=
  nextFree_not_avoided (Nat.le_refl _) names.counter

def ahead (names : FreshNames) : Set Nat :=
  {n | names.counter < n ∧ nameAt names.stem n ∉ names.avoided}

theorem isLeast_ahead_fresh (names : FreshNames) : IsLeast names.ahead names.fresh.2.counter := by
  refine ⟨⟨lt_nextFree .., names.fresh_not_avoided⟩, fun n hn => ?_⟩
  by_contra hpassed
  exact hn.2 (avoided_of_lt_nextFree hn.1 (Nat.lt_of_not_ge hpassed))

/-- The name is one that the counter has reached. -/
def Drawn (names : FreshNames) (name : String) : Prop :=
  ∃ n ≤ names.counter, name = nameAt names.stem n

theorem drawn_fresh (names : FreshNames) : names.fresh.2.Drawn names.fresh.1 :=
  ⟨_, Nat.le_refl _, rfl⟩

theorem Drawn.fresh (h : names.Drawn name) : names.fresh.2.Drawn name := by
  obtain ⟨n, hle, hname⟩ := h
  exact ⟨n, Nat.le_trans hle (Nat.le_of_lt (lt_nextFree _ _ _ _)), hname⟩

theorem not_drawn_fresh (names : FreshNames) : ¬ names.Drawn names.fresh.1 := by
  rintro ⟨n, hle, hname⟩
  have heq : nextFree names.stem names.avoided names.avoided.length names.counter = n :=
    eq_of_nameAt_eq hname
  have hlt := lt_nextFree names.stem names.avoided names.avoided.length names.counter
  omega

/-- The name was drawn after the counter stood at `before`: the counter has reached its number
since, and has not passed over it. -/
def DrawnSince (before : Nat) (names : FreshNames) (name : String) : Prop :=
  ∃ n, before < n ∧ n ≤ names.counter ∧ name = nameAt names.stem n ∧ name ∉ names.avoided

theorem drawnSince_fresh {before : Nat} (h : before ≤ names.counter) :
    names.fresh.2.DrawnSince before name ↔ name = names.fresh.1 ∨ names.DrawnSince before name := by
  have hrises : names.counter < names.fresh.2.counter := lt_nextFree ..
  constructor
  · rintro ⟨n, hlt, hle, hname, hfree⟩
    rcases Nat.lt_or_ge names.counter n with habove | hbelow
    · left
      -- numbers between the two counters were passed over because of their names
      have hlast : n = names.fresh.2.counter :=
        Nat.le_antisymm hle (names.isLeast_ahead_fresh.2 ⟨habove, hname ▸ hfree⟩)
      rw [hname, hlast]
      rfl
    · exact Or.inr ⟨n, hlt, hbelow, hname, hfree⟩
  · rintro (rfl | ⟨n, hlt, hle, hname, hfree⟩)
    · exact ⟨names.fresh.2.counter, by omega, Nat.le_refl _, rfl, names.fresh_not_avoided⟩
    · exact ⟨n, hlt, by omega, hname, hfree⟩

/-! ## The search round by round -/

def advance (names : FreshNames) : FreshNames := { names with counter := names.counter + 1 }

/-- The search for a name by rounds, without a bound on their number. Each round moves the counter
on by one, and the first number with a name that is not avoided ends the search. -/
inductive Finds : FreshNames → (rounds : Nat) → String → FreshNames → Prop
  | free {names : FreshNames} (h : nameAt names.stem (names.counter + 1) ∉ names.avoided) :
    Finds names 1 (nameAt names.stem (names.counter + 1)) names.advance
  | passed {names last : FreshNames} {rounds : Nat} {name : String}
    (h : nameAt names.stem (names.counter + 1) ∈ names.avoided)
    (hrest : Finds names.advance rounds name last) : Finds names (rounds + 1) name last

theorem ahead_advance (h : nameAt names.stem (names.counter + 1) ∈ names.avoided) :
    names.advance.ahead = names.ahead := by
  ext n
  -- only the number stepped on could be lost, and its name is avoided
  refine and_congr_left fun hfree => ⟨Nat.lt_of_succ_lt, fun hlt => ?_⟩
  refine Nat.lt_of_le_of_ne hlt fun heq => hfree ?_
  exact heq ▸ h

/-- A search of some rounds ends as many numbers further, at the first name that is not avoided. -/
theorem Finds.spec (h : names.Finds rounds name last) :
    IsLeast names.ahead last.counter ∧ last = { names with counter := last.counter } ∧
      name = nameAt names.stem last.counter ∧ last.counter = names.counter + rounds := by
  induction h with
  | free hfree => exact ⟨⟨⟨Nat.lt_succ_self _, hfree⟩, fun n hn => hn.1⟩, rfl, rfl, rfl⟩
  | @passed names last rounds name hpassed _ ih =>
    obtain ⟨hleast, hlast, hname, hcounter⟩ := ih
    rw [ahead_advance hpassed] at hleast
    refine ⟨hleast, hlast, hname, ?_⟩
    rw [hcounter, advance, Nat.add_right_comm, Nat.add_assoc]

theorem exists_finds {n : Nat} (h : n ∈ names.ahead) : ∃ rounds name last, names.Finds rounds name last := by
  -- by the distance from the counter to that name
  induction hdistance : n - names.counter generalizing names with
  | zero => exact absurd h.1 (by omega)
  | succ distance ih =>
    by_cases hpassed : nameAt names.stem (names.counter + 1) ∈ names.avoided
    · have hdistance' : n - names.advance.counter = distance := by
        change n - (names.counter + 1) = distance
        omega
      obtain ⟨rounds, name, last, hrest⟩ := ih (ahead_advance hpassed ▸ h) hdistance'
      exact ⟨_, _, _, .passed hpassed hrest⟩
    · exact ⟨_, _, _, .free hpassed⟩

/-- The search ends, always in the same way, and `fresh` says how. -/
theorem finds_iff : names.Finds rounds name last ↔
    names.fresh = (name, last) ∧ last.counter = names.counter + rounds := by
  have hunique : ∀ {rounds name last}, names.Finds rounds name last → names.fresh = (name, last) := by
    intro rounds name last h
    obtain ⟨hleast, hlast, hname, _⟩ := h.spec
    rw [hlast, hname, ← names.isLeast_ahead_fresh.unique hleast]
    rfl
  constructor
  · exact fun h => ⟨hunique h, h.spec.2.2.2⟩
  · rintro ⟨hfresh, hcounter⟩
    obtain ⟨rounds', name', last', h⟩ := exists_finds names.isLeast_ahead_fresh.1
    obtain ⟨rfl, rfl⟩ := Prod.mk.inj (hfresh.symm.trans (hunique h))
    have hrounds : rounds' = rounds := by
      have := h.spec.2.2.2
      omega
    exact hrounds ▸ h

theorem nextFree_le (stem : String) (avoided : List String) (tries n : Nat) :
    nextFree stem avoided tries n ≤ n + tries + 1 := by
  induction tries generalizing n with
  | zero => exact Nat.le_refl _
  | succ tries ih =>
    unfold nextFree
    split
    · have := ih (n + 1)
      omega
    · omega

theorem exists_rounds (names : FreshNames) : ∃ rounds ≤ names.avoided.length + 1,
    names.fresh.2.counter = names.counter + rounds := by
  have hrises : names.counter < names.fresh.2.counter := lt_nextFree ..
  have hle : names.fresh.2.counter ≤ names.counter + names.avoided.length + 1 := nextFree_le ..
  exact ⟨names.fresh.2.counter - names.counter, by omega, by omega⟩

/-! ## Calls -/

inductive Call where
  | avoid (more : List String)
  | fresh
  | reset

/-- A source with the names that it returned, and those noted to be avoided, since the last reset.
-/
structure Account where
  source : FreshNames
  returned : List String := []
  noted : List String := []

def Call.run (account : Account) : Call → Account
  | avoid more =>
    { account with source := account.source.avoid more, noted := account.noted ++ more }
  | fresh =>
    let (name, source) := account.source.fresh
    { account with source, returned := account.returned ++ [name] }
  | reset => { source := account.source.reset }

def afterCalls (stem : String) (calls : List Call) : Account :=
  calls.foldl Call.run { source := { stem } }

/-- The source avoids what was noted, and the names returned are behind its counter. -/
structure Account.Kept (account : Account) (stem : String) : Prop where
  stem : account.source.stem = stem
  avoided : account.source.avoided = account.noted
  drawn : ∀ name ∈ account.returned, account.source.Drawn name

theorem Account.Kept.run {account : Account} (h : account.Kept stem) (call : Call) :
    (call.run account).Kept stem := by
  cases call with
  | avoid more => exact ⟨h.stem, congrArg (· ++ more) h.avoided, h.drawn⟩
  | fresh =>
    refine ⟨h.stem, h.avoided, fun name hname => ?_⟩
    rcases List.mem_append.1 hname with hname | hname
    · exact (h.drawn name hname).fresh
    · obtain rfl := List.mem_singleton.1 hname
      exact account.source.drawn_fresh
  | reset => exact ⟨h.stem, rfl, fun _ hname => absurd hname List.not_mem_nil⟩

theorem kept_afterCalls (stem : String) (calls : List Call) : (afterCalls stem calls).Kept stem := by
  have hnew : Account.Kept { source := { stem } } stem :=
    ⟨rfl, rfl, fun _ hname => absurd hname List.not_mem_nil⟩
  exact List.foldlRecOn (motive := fun account => account.Kept stem) calls Call.run hnew
    fun _ h call _ => h.run call

/-- After any calls the search for a name ends, in one way only. The name found was not returned and
is not to be avoided since the last reset, and the counter is at the least number with such a name.
-/
theorem fresh_found (stem : String) (calls : List Call) :
    let account := afterCalls stem calls
    ∃ rounds name last, account.source.fresh = (name, last) ∧
      (∀ rounds' name' last', account.source.Finds rounds' name' last' ↔
        rounds' = rounds ∧ name' = name ∧ last' = last) ∧
      rounds ≤ account.noted.length + 1 ∧ last.counter = account.source.counter + rounds ∧
      name = nameAt stem last.counter ∧ name ∉ account.returned ∧ name ∉ account.noted ∧
      IsLeast {n | account.source.counter < n ∧ nameAt stem n ∉ account.noted} last.counter := by
  intro account
  obtain ⟨hstem, havoided, hdrawn⟩ := kept_afterCalls stem calls
  obtain ⟨rounds, hrounds, hcounter⟩ := account.source.exists_rounds
  have hnew : account.source.fresh.1 ∉ account.returned := fun hmem =>
    account.source.not_drawn_fresh (hdrawn _ hmem)
  have hfree : account.source.fresh.1 ∉ account.noted := havoided ▸ account.source.fresh_not_avoided
  have hleast := account.source.isLeast_ahead_fresh
  rw [ahead, hstem, havoided] at hleast
  refine ⟨rounds, _, _, rfl, fun rounds' name' last' => ?_, havoided ▸ hrounds, hcounter,
    congrArg (nameAt · _) hstem, hnew, hfree, hleast⟩
  rw [finds_iff]
  constructor
  · rintro ⟨hfresh, hrounds'⟩
    obtain ⟨rfl, rfl⟩ := Prod.mk.inj hfresh
    exact ⟨Nat.add_left_cancel (hrounds'.symm.trans hcounter), rfl, rfl⟩
  · rintro ⟨rfl, rfl, rfl⟩
    exact ⟨rfl, hcounter⟩

example : (afterCalls "z1" [.avoid ["z12", "z2"], .fresh, .fresh]).returned = ["z11", "z13"] := by
  decide +kernel

end Satisfiability.FreshNames
