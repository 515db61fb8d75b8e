import Satisfiability.Proofs.Equality.Interning

/-!
# Classes are congruence closures

The least equivalence of nodes that has some equations and is closed under congruence relates
exactly the nodes that are in one class once the equations are merged, in whatever order and with
whatever checkpoints between them (`same_iff_related`). What one change does to the equations in
force is seen from the classes (`Tracks.change`): a merge adds an equation, and a return to a
checkpoint brings back those that were in force there. Each relation closed under congruence that
holds wherever nodes were equal or waited to be merged still holds wherever they are equal after a
merge (`Merges.sound`), so nothing is merged without need.
-/

namespace Satisfiability.Equality

/-! ## What is in force -/

/-- What is in force, and what was in force at each checkpoint, the newest first. -/
structure History (α : Type) where
  live : List α := []
  saved : List (List α) := []

namespace History

variable {α : Type}

def add (history : History α) (x : α) : History α := { history with live := x :: history.live }

def checkpoint (history : History α) : History α :=
  { history with saved := history.live :: history.saved }

/-- Returns to the newest checkpoint and removes it, if there is one. -/
def restore (history : History α) : History α :=
  match history.saved with
  | [] => history
  | earlier :: saved => ⟨earlier, saved⟩

theorem restore_add {history : History α} (x : α) (h : history.saved ≠ []) :
    (history.add x).restore = history.restore := by
  obtain ⟨live, saved⟩ := history
  cases saved with
  | nil => exact absurd rfl h
  | cons earlier saved => rfl

end History

namespace TermClasses

open Satisfiability.FirstOrder (Term)

variable {classes classes' base : TermClasses} {a b : NodeId}
  {equations pending : List (NodeId × NodeId)} {r : NodeId → NodeId → Prop}

/-! ## Relations closed under congruence -/

/-- An equivalence that holds between nodes of one symbol whose arguments it relates in pairs. -/
structure IsCongruence (classes : TermClasses) (r : NodeId → NodeId → Prop) : Prop where
  equivalence : Equivalence r
  congruent : ∀ a b symbol xs ys, classes.term? a = some (symbol, xs) →
    classes.term? b = some (symbol, ys) → xs.length = ys.length →
      (∀ pair ∈ xs.zip ys, r pair.1 pair.2) → r a b

/-- The least equivalence that has some equations and is closed under congruence. -/
inductive Related (classes : TermClasses) (equations : List (NodeId × NodeId)) :
    NodeId → NodeId → Prop
  | equation {a b : NodeId} (hmem : (a, b) ∈ equations) : Related classes equations a b
  | refl (a : NodeId) : Related classes equations a a
  | symm {a b : NodeId} (h : Related classes equations a b) : Related classes equations b a
  | trans {a b c : NodeId} (h : Related classes equations a b) (h' : Related classes equations b c) :
    Related classes equations a c
  | congruent {a b : NodeId} {symbol : String} {xs ys : List NodeId}
    (ha : classes.term? a = some (symbol, xs)) (hb : classes.term? b = some (symbol, ys))
    (hlength : xs.length = ys.length)
    (harguments : ∀ pair ∈ xs.zip ys, Related classes equations pair.1 pair.2) :
    Related classes equations a b

theorem isCongruence_related (classes : TermClasses) (equations : List (NodeId × NodeId)) :
    classes.IsCongruence (classes.Related equations) :=
  ⟨⟨.refl, .symm, .trans⟩, fun _ _ _ _ _ => .congruent⟩

theorem Related.least (hr : classes.IsCongruence r) (hequations : ∀ pair ∈ equations, r pair.1 pair.2)
    (h : classes.Related equations a b) : r a b := by
  induction h with
  | equation hmem => exact hequations _ hmem
  | refl a => exact hr.equivalence.refl a
  | symm _ ih => exact hr.equivalence.symm ih
  | trans _ _ ih ih' => exact hr.equivalence.trans ih ih'
  | congruent ha hb hlength _ ih => exact hr.congruent _ _ _ _ _ ha hb hlength ih

theorem Related.mono {more : List (NodeId × NodeId)} (hsubset : equations ⊆ more)
    (h : classes.Related equations a b) : classes.Related more a b :=
  h.least (isCongruence_related classes more) fun _ hmem => .equation (hsubset hmem)

theorem IsCongruence.sameTerms (h : classes.IsCongruence r) (hterms : classes.SameTerms classes') :
    classes'.IsCongruence r := by
  refine ⟨h.equivalence, fun a b symbol xs ys ha hb => ?_⟩
  rw [hterms.term] at ha hb
  exact h.congruent a b symbol xs ys ha hb

theorem Closed.isCongruence (h : classes.Closed) :
    classes.IsCongruence fun a b => classes.same a b = true := by
  refine ⟨⟨fun a => same_iff.2 rfl, fun hab => same_iff.2 (same_iff.1 hab).symm,
    fun hab hbc => same_iff.2 ((same_iff.1 hab).trans (same_iff.1 hbc))⟩, ?_⟩
  intro a b symbol xs ys ha hb hlength harguments
  apply h a b
  exact congruent_iff.2 ⟨symbol, xs, ys, ha, hb, map_representative_eq_iff.2 ⟨hlength, harguments⟩⟩

theorem IsCongruence.of_congruent (hr : classes.IsCongruence r)
    (hsame : ∀ a b, classes.same a b = true → r a b) (h : classes.congruent a b = true) : r a b := by
  obtain ⟨symbol, xs, ys, ha, hb, hmap⟩ := congruent_iff.1 h
  obtain ⟨hlength, harguments⟩ := map_representative_eq_iff.1 hmap
  exact hr.congruent a b symbol xs ys ha hb hlength
    fun pair hmem => hsame pair.1 pair.2 (harguments pair hmem)

theorem Closed.of_isCongruence (h : classes.IsCongruence fun a b => classes.same a b = true) :
    classes.Closed :=
  fun _ _ => h.of_congruent fun _ _ => id

/-! ## Nothing is merged without need -/

/-- Nodes that one class takes over by merging related nodes are related to those of the other. -/
theorem IsCongruence.of_absorb {absorbed root x y : NodeId} (hr : classes.IsCongruence r)
    (hvalid : classes.Valid) (hsame : ∀ a b, classes.same a b = true → r a b)
    (ha : classes.Leads a absorbed) (hb : classes.Leads b root) (hne : absorbed ≠ root)
    (hab : r a b) (hxy : (classes.absorb absorbed root).same x y = true) : r x y := by
  obtain ⟨_, hrepresentative⟩ := hvalid.absorb ha.isRoot hb.isRoot hne
  have ha' := hvalid.forest.representative_eq ha
  have hb' := hvalid.forest.representative_eq hb
  have habsorbed : ∀ z, classes.representative z = absorbed → r z a :=
    fun z hz => hsame z a (same_iff.2 (hz.trans ha'.symm))
  have hroot : ∀ z, classes.representative z = root → r z b :=
    fun z hz => hsame z b (same_iff.2 (hz.trans hb'.symm))
  rw [same_iff, hrepresentative, hrepresentative] at hxy
  by_cases hx : classes.representative x = absorbed
  · rw [if_pos hx] at hxy
    by_cases hy : classes.representative y = absorbed
    · exact hsame x y (same_iff.2 (hx.trans hy.symm))
    · rw [if_neg hy] at hxy
      have hxb : r x b := hr.equivalence.trans (habsorbed x hx) hab
      exact hr.equivalence.trans hxb (hr.equivalence.symm (hroot y hxy.symm))
  · rw [if_neg hx] at hxy
    by_cases hy : classes.representative y = absorbed
    · rw [if_pos hy] at hxy
      have hyb : r y b := hr.equivalence.trans (habsorbed y hy) hab
      exact hr.equivalence.trans (hroot x hxy) (hr.equivalence.symm hyb)
    · rw [if_neg hy] at hxy
      exact hsame x y (same_iff.2 hxy)

/-- A congruence that holds between equal nodes and between those that wait to be merged holds
between all nodes that end up equal. -/
theorem Merges.sound {merges : Nat} {result : Nat × TermClasses}
    (hmerges : classes.Merges merges pending result) (hvalid : classes.Valid)
    (hr : classes.IsCongruence r) (hsame : ∀ a b, classes.same a b = true → r a b)
    (hpending : ∀ pair ∈ pending, r pair.1 pair.2) (h : result.2.same a b = true) : r a b := by
  induction hmerges with
  | done => exact hsame a b h
  | equal _ _ _ ih =>
    exact ih hvalid hr hsame (fun pair hmem => hpending pair (List.mem_cons_of_mem _ hmem)) h
  | @absorb classes _ pending _ p q absorbed root hp hq hne _ _ ih =>
    have hr' : (classes.absorb absorbed root).IsCongruence r := hr.sameTerms sameTerms_absorb
    have hsame' : ∀ a b, (classes.absorb absorbed root).same a b = true → r a b :=
      fun a b => hr.of_absorb hvalid hsame hp hq hne (hpending (p, q) List.mem_cons_self)
    apply ih (hvalid.absorb hp.isRoot hq.isRoot hne).1 hr' hsame' _ h
    -- what waits now has become congruent, or waited before
    intro pair hmem
    rcases List.mem_append.1 hmem with hmem | hmem
    · obtain ⟨_, _, hcongruent⟩ := mem_congruentPairs.1 (List.mem_reverse.1 hmem)
      exact hr'.of_congruent hsame' hcongruent
    · exact hpending pair (List.mem_cons_of_mem _ hmem)

/-! ## The equations in force -/

/-- Nodes of the terms of `base` are in one class exactly if some equations relate them. -/
structure Closes (base classes : TermClasses) (equations : List (NodeId × NodeId)) : Prop where
  valid : classes.Valid
  terms : base.SameTerms classes
  same : ∀ a b, classes.same a b = true ↔ base.Related equations a b

/-- The classes are those of the equations in force, and a return to each checkpoint finds the
classes of the equations in force there. -/
def Tracks (base classes : TermClasses) (equations : List (NodeId × NodeId)) :
    (saved : List (List (NodeId × NodeId))) → Prop
  | [] => base.Closes classes equations ∧ classes.restore? = none
  | earlier :: saved => base.Closes classes equations ∧
    ∃ restored, classes.restore? = some restored ∧ base.Tracks restored earlier saved

theorem Closes.closed (h : base.Closes classes equations) : classes.Closed := by
  have hsame : (fun a b => classes.same a b = true) = base.Related equations :=
    funext fun a => funext fun b => propext (h.same a b)
  apply Closed.of_isCongruence
  rw [hsame]
  exact (isCongruence_related base equations).sameTerms h.terms

theorem Closes.merge (h : base.Closes classes equations) (ha : a < classes.size)
    (hb : b < classes.size) : base.Closes (classes.merge a b).2 ((a, b) :: equations) := by
  obtain ⟨hmerged, hclosed, hab⟩ := merge_spec h.valid h.closed ha hb
  have hterms := h.terms.trans hmerged.terms
  refine ⟨hmerged.valid, hterms, fun x y => ⟨fun hxy => ?_, fun hxy => ?_⟩⟩
  · have hr := isCongruence_related base ((a, b) :: equations)
    refine (h.valid.merge_ends ha hb).sound h.valid (hr.sameTerms h.terms) (fun p q hpq => ?_) ?_ hxy
    · exact ((h.same p q).1 hpq).mono (List.subset_cons_self _ _)
    · rintro pair hmem
      rw [List.mem_singleton.1 hmem]
      exact .equation List.mem_cons_self
  · apply hxy.least (hclosed.isCongruence.sameTerms hterms.symm)
    rintro ⟨p, q⟩ hmem
    rcases List.mem_cons.1 hmem with heq | hmem
    · cases heq
      exact hab
    · exact hmerged.same p q ((h.same p q).2 (.equation hmem))

theorem Valid.closes_self (h : classes.Valid) (hself : ∀ id, classes.representative id = id) :
    classes.Closes classes [] := by
  refine ⟨h, .refl _, fun a b => ⟨fun hab => ?_, fun hab => ?_⟩⟩
  · rw [same_iff, hself, hself] at hab
    exact hab ▸ .refl a
  · exact hab.least (h.closed_of_representative hself).isCongruence
      fun _ hmem => absurd hmem List.not_mem_nil

theorem Closes.congr (h : base.Closes classes equations) (hnodes : classes'.nodes = classes.nodes) :
    base.Closes classes' equations := by
  have hterms : classes.SameTerms classes' := ⟨congrArg Array.size hnodes, term?_congr hnodes⟩
  refine ⟨h.valid.congr hnodes, h.terms.trans hterms, fun a b => ?_⟩
  rw [same_congr hnodes]
  exact h.same a b

section tracks

variable {saved : List (List (NodeId × NodeId))}

theorem Tracks.closes (h : base.Tracks classes equations saved) : base.Closes classes equations := by
  cases saved with
  | nil => exact h.1
  | cons earlier saved => exact h.1

theorem Tracks.merge (h : base.Tracks classes equations saved) (ha : a < base.size)
    (hb : b < base.size) : base.Tracks (classes.merge a b).2 ((a, b) :: equations) saved := by
  have hcloses := h.closes
  have hsize := hcloses.terms.size
  rw [← hsize] at ha hb
  have hcloses' := hcloses.merge ha hb
  -- what is returned to stays the same
  have hrestore := (merge_spec hcloses.valid hcloses.closed ha hb).1.restore
  cases saved with
  | nil => exact ⟨hcloses', hrestore.trans h.2⟩
  | cons earlier saved =>
    obtain ⟨_, restored, hrestored, hbelow⟩ := h
    exact ⟨hcloses', restored, hrestore.trans hrestored, hbelow⟩

theorem Tracks.checkpoint (h : base.Tracks classes equations saved) :
    base.Tracks classes.checkpoint equations (equations :: saved) :=
  ⟨h.closes.congr rfl, classes, rfl, h⟩

end tracks

/-! ## Runs of changes -/

inductive Change where
  | merge (a b : NodeId)
  | checkpoint
  | restore
  deriving DecidableEq

namespace Change

/-- The classes after a change. Without a checkpoint there is nothing to return to. -/
def apply (classes : TermClasses) : Change → TermClasses
  | merge a b => (classes.merge a b).2
  | checkpoint => classes.checkpoint
  | restore => (classes.restore?).getD classes

def record (history : History (NodeId × NodeId)) : Change → History (NodeId × NodeId)
  | merge a b => history.add (a, b)
  | checkpoint => history.checkpoint
  | restore => history.restore

def Within (size : Nat) : Change → Prop
  | merge a b => a < size ∧ b < size
  | checkpoint => True
  | restore => True

instance (size : Nat) : DecidablePred (Within size)
  | merge a b => inferInstanceAs (Decidable (a < size ∧ b < size))
  | checkpoint => inferInstanceAs (Decidable True)
  | restore => inferInstanceAs (Decidable True)

end Change

def after (classes : TermClasses) (changes : List Change) : TermClasses :=
  changes.foldl Change.apply classes

def inForce (changes : List Change) : List (NodeId × NodeId) := (changes.foldl Change.record {}).live

def ofTerms (terms : List Term) : TermClasses := (internAll {} terms).2

section changes

variable {history : History (NodeId × NodeId)} {changes : List Change}

theorem Tracks.change (h : base.Tracks classes history.live history.saved) {change : Change}
    (hwithin : change.Within base.size) :
    base.Tracks (change.apply classes) (change.record history).live (change.record history).saved := by
  obtain ⟨live, saved⟩ := history
  cases change with
  | merge a b => exact h.merge hwithin.1 hwithin.2
  | checkpoint => exact h.checkpoint
  | restore =>
    unfold Change.apply Change.record History.restore
    cases saved with
    | nil =>
      rw [h.2, Option.getD_none]
      exact h
    | cons earlier saved =>
      obtain ⟨_, restored, hrestored, hbelow⟩ := h
      rw [hrestored, Option.getD_some]
      exact hbelow

theorem Tracks.run (h : base.Tracks classes history.live history.saved)
    (hwithin : ∀ change ∈ changes, change.Within base.size) :
    base.Tracks (changes.foldl Change.apply classes) (changes.foldl Change.record history).live
      (changes.foldl Change.record history).saved := by
  induction changes generalizing classes history with
  | nil => exact h
  | cons change rest ih =>
    have hfirst := h.change (hwithin change List.mem_cons_self)
    exact ih hfirst fun other hmem => hwithin other (List.mem_cons_of_mem _ hmem)

end changes

theorem tracks_ofTerms (terms : List Term) : (ofTerms terms).Tracks (ofTerms terms) [] [] := by
  have hinterned := (valid_empty.internAll terms).1
  refine ⟨hinterned.valid.closes_self hinterned.representative_eq_self, ?_⟩
  rw [restore?_eq, show (ofTerms terms).checkpoints = [] from hinterned.checkpoints]

/-- After whatever merges, checkpoints and returns to checkpoints, two nodes are in one class
exactly if the least equivalence closed under congruence that has the equations in force relates
them. Each search for a representative comes to an end, and so does each merge. -/
theorem same_iff_related (terms : List Term) (changes : List Change)
    (hwithin : ∀ change ∈ changes, change.Within (ofTerms terms).size) :
    (∀ a b, ((ofTerms terms).after changes).same a b = true ↔
      (ofTerms terms).Related (inForce changes) a b) ∧
    ((ofTerms terms).after changes).Represented ∧
    ∀ a b, a < (ofTerms terms).size → b < (ofTerms terms).size →
      ((ofTerms terms).after changes).Merges 0 [(a, b)]
        (((ofTerms terms).after changes).merge a b) := by
  have htracks : (ofTerms terms).Tracks ((ofTerms terms).after changes) (inForce changes)
      (changes.foldl Change.record {}).saved := (tracks_ofTerms terms).run hwithin
  have hcloses := htracks.closes
  refine ⟨hcloses.same, hcloses.valid.represented, fun a b ha hb => ?_⟩
  rw [← hcloses.terms.size] at ha hb
  exact hcloses.valid.merge_ends ha hb

/-- The terms `f(f(f(x)))` and `x`, with the numbers 3 and 0, and those within them. -/
def cycleTerms : List Term :=
  [.app "f" [.app "f" [.app "f" [.var "x"]]], .var "x"]

/-- With `f(f(f(x))) = x` and `f(f(x)) = x` in force, and `x = f(x)` undone, `f(x)` equals `x`. -/
theorem same_iff_related_cycle :
    (∀ change ∈ [.merge 3 0, .checkpoint, .merge 0 1, .restore, .merge 2 0],
      Change.Within (ofTerms cycleTerms).size change) ∧
    (ofTerms cycleTerms).Related [(2, 0), (3, 0)] 1 0 := by
  have hwithin : ∀ change ∈ [.merge 3 0, .checkpoint, .merge 0 1, .restore, .merge 2 0],
      Change.Within (ofTerms cycleTerms).size change := by decide +kernel
  refine ⟨hwithin, ?_⟩
  apply ((same_iff_related cycleTerms _ hwithin).1 1 0).1
  decide +kernel

end TermClasses

end Satisfiability.Equality
