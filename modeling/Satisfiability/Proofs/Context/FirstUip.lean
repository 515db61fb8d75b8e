import Satisfiability.Proofs.Context.Asserting
import Satisfiability.Proofs.Search.Dominator

/-!
# The first unique implication point

Resolution along the trail and the immediate dominator of a conflict agree (`Session.firstUip`). The
literals of the newest level in the clause resolved cut all paths from the decision to the conflict.
Of the atoms given their values after them none is on all paths (`Cut`). Each resolution keeps this;
once a single literal is left it is on all paths, and every other atom that is comes before it.
-/

namespace Satisfiability.Context

open Search Step Trail

variable {ρ : Type} {ctx : Context ρ} {log : List (Source × Clause)} {literal decision last : Literal}
  {clause literals : Clause} {key : ClauseKey} {atom parent : Atom} {place i j m : Nat}

/-! ## The newest level -/

/-- The atom was given its value at a place of the trail, on the newest level. -/
def Placed (ctx : Context ρ) (atom : Atom) (place : Nat) : Prop :=
  ∃ literal, ctx.trail.marked[place]? = some (literal, ctx.trail.level) ∧ literal.atom = atom

def NotAfter (ctx : Context ρ) (place : Nat) : Option Atom → Prop
  | none => False
  | some atom => ∃ i ≤ place, ctx.Placed atom i

/-- The node of an atom placed no earlier, or that of the conflict. -/
def NotBefore (ctx : Context ρ) (place : Nat) : Option Atom → Prop
  | none => True
  | some atom => ∃ i, place ≤ i ∧ ctx.Placed atom i

/-- The decision opens the newest level at a place of the trail. -/
structure Opens (ctx : Context ρ) (decision : Literal) (place : Nat) : Prop where
  placed : ctx.Placed decision.atom place
  first : ∀ atom i, ctx.Placed atom i → place ≤ i

/-- The atoms of the newest level and of the clause in conflict, with a node for the conflict. -/
def conflictGraph (ctx : Context ρ) (clause : Clause) : Search.Digraph (Option Atom) :=
  ctx.graph.levelGraph (ctx.trail.top.map Literal.atom) (ctx.ofLevel ctx.trail.level clause).atoms

theorem Placed.eq_place (h : ctx.Placed atom i) (h' : ctx.Placed atom j) (hagrees : ctx.Agrees) :
    i = j := by
  obtain ⟨literal, hmark, rfl⟩ := h
  obtain ⟨literal', hmark', hatom⟩ := h'
  exact (hagrees.unique hmark hmark' hatom.symm).2.2

theorem NotAfter.mono {node : Option Atom} (h : ctx.NotAfter i node) (hle : i ≤ j) :
    ctx.NotAfter j node := by
  cases node with
  | none => exact h
  | some atom =>
    obtain ⟨place, hi, hplaced⟩ := h
    exact ⟨place, Nat.le_trans hi hle, hplaced⟩

theorem NotBefore.mono {node : Option Atom} (h : ctx.NotBefore i node) (hle : j ≤ i) :
    ctx.NotBefore j node := by
  cases node with
  | none => exact h
  | some atom =>
    obtain ⟨place, hi, hplaced⟩ := h
    exact ⟨place, Nat.le_trans hle hi, hplaced⟩

theorem NotAfter.ne {node : Option Atom} (h : ctx.NotAfter i node) (hij : i < j)
    (hplaced : ctx.Placed atom j) (hagrees : ctx.Agrees) : node ≠ some atom := by
  rintro rfl
  obtain ⟨place, hle, hplaced'⟩ := h
  have := hplaced'.eq_place hplaced hagrees
  omega

theorem NotBefore.ne {node : Option Atom} (h : ctx.NotBefore j node) (hij : i < j)
    (hplaced : ctx.Placed atom i) (hagrees : ctx.Agrees) : node ≠ some atom := by
  rintro rfl
  obtain ⟨place, hle, hplaced'⟩ := h
  have := hplaced'.eq_place hplaced hagrees
  omega

theorem Agrees.level?_eq_iff_placed (h : ctx.Agrees) :
    ctx.atoms.level? atom = some ctx.trail.level ↔ ∃ i, ctx.Placed atom i := by
  rw [h.level?_eq_some]
  constructor
  · rintro ⟨value, hmem⟩
    obtain ⟨i, hmark⟩ := List.mem_iff_getElem?.1 hmem
    exact ⟨i, _, hmark, rfl⟩
  · rintro ⟨i, ⟨_, value⟩, hmark, rfl⟩
    exact ⟨value, List.mem_of_getElem? hmark⟩

theorem Agrees.mem_top_iff_level? (h : ctx.Agrees) :
    atom ∈ ctx.trail.top.map Literal.atom ↔ ctx.atoms.level? atom = some ctx.trail.level := by
  rw [h.level?_eq_some, List.mem_map]
  simp only [mem_top_iff]
  constructor
  · rintro ⟨⟨_, value⟩, hmem, rfl⟩
    exact ⟨value, hmem⟩
  · rintro ⟨value, hmem⟩
    exact ⟨_, hmem, rfl⟩

theorem exists_opens (hfilled : ctx.trail.Filled) (hlevel : 0 < ctx.trail.level) :
    ∃ decision, ctx.trail.decision? = some decision ∧ ∃ place, ctx.Opens decision place := by
  obtain ⟨decision, hdecision, place, hmark, hfirst⟩ := hfilled.exists_decision hlevel
  refine ⟨decision, hdecision, place, ⟨decision, hmark, rfl⟩, ?_⟩
  rintro _ i ⟨literal, hmark', rfl⟩
  exact hfirst i literal hmark'

/-! ## Arrows -/

section arrows

variable (hagrees : ctx.Agrees)

include hagrees

theorem arrow_atom_iff : (some parent, some atom) ∈ (ctx.conflictGraph clause).arrows ↔
    ctx.atoms.level? atom = some ctx.trail.level ∧ parent ∈ (ctx.graph.node atom).parents ∧
      ctx.atoms.level? parent = some ctx.trail.level := by
  rw [conflictGraph, ImplicationGraph.arrow_iff, hagrees.mem_top_iff_level?,
    hagrees.mem_top_iff_level?]

theorem arrow_none_iff : (some atom, none) ∈ (ctx.conflictGraph clause).arrows ↔
    ∃ x ∈ ctx.ofLevel ctx.trail.level clause, x.atom = atom := by
  rw [conflictGraph, ImplicationGraph.arrow_conflict_iff, hagrees.mem_top_iff_level?, Clause.atoms,
    List.mem_map]
  refine ⟨And.left, fun h => ⟨h, ?_⟩⟩
  obtain ⟨x, hx, rfl⟩ := h
  exact (mem_ofLevel.1 hx).2

end arrows

theorem Justified.forces (h : ctx.Justified) {level : Nat}
    (hmark : ctx.trail.marked[place]? = some (literal, level))
    (hreason : ctx.graph.reason? literal.atom = some key) :
    Forces ctx.clauses ctx.trail.marked key literal place := by
  have hforces := h place literal level hmark
  rw [hreason] at hforces
  exact hforces

theorem Forces.of_has {store : ClauseStore} {marks : List (Literal × Nat)}
    (h : Forces store marks key literal place) (hhas : store.Has key clause) :
    literal ∈ clause ∧ ∀ other ∈ clause, other ≠ literal →
      ∃ i < place, ∃ level, marks[i]? = some (-other, level) := by
  obtain ⟨clause', hhas', hclause'⟩ := h
  exact hhas'.unique hhas ▸ hclause'

theorem Accounted.mem_parents_iff (h : ctx.Accounted log)
    (hforces : Forces ctx.clauses ctx.trail.marked key literal place)
    (hreason : ctx.graph.reason? literal.atom = some key) (hhas : ctx.clauses.Has key clause) :
    parent ∈ (ctx.graph.node literal.atom).parents ↔
      parent ≠ literal.atom ∧ ∃ other ∈ clause, other.atom = parent := by
  rw [h.parents, mem_reasonAtoms, hreason, and_comm]
  refine and_congr_right fun hne => ⟨?_, ?_⟩
  · rintro ⟨source, index, clause', heq, hhas', hmem⟩
    cases heq
    exact List.mem_map.1 (hhas'.unique hhas ▸ hmem)
  · rintro ⟨other, hother, rfl⟩
    cases key with
    | unit source unit =>
      -- a clause of one literal has no other atom
      have hliteral := (hforces.of_has hhas).1
      obtain ⟨rfl, _⟩ := hhas
      rw [List.mem_singleton] at hliteral hother
      exact absurd (by rw [hother, hliteral]) hne
    | stored source index =>
      exact ⟨source, index, clause, rfl, hhas, List.mem_map.2 ⟨other, hother, rfl⟩⟩

/-! ## Paths from the decision -/

section paths

variable {opening : Nat} {conflict : Clause} (hagrees : ctx.Agrees) (hjustified : ctx.Justified)
  (haccounted : ctx.Accounted log) (hlevel : 0 < ctx.trail.level)
  (hopens : ctx.Opens decision opening)

include hagrees hjustified haccounted hlevel hopens

/-- An atom of the level is that of the decision, or an arrow leads to it from an earlier one. -/
theorem Placed.eq_or_arrow (hplaced : ctx.Placed atom place) :
    atom = decision.atom ∨ ∃ i < place, ∃ parent, ctx.Placed parent i ∧
      (some parent, some atom) ∈ (ctx.conflictGraph conflict).arrows := by
  have hself := hplaced
  obtain ⟨literal, hmark, rfl⟩ := hplaced
  rcases hreason : ctx.graph.reason? literal.atom with _ | key
  · -- what has no reason opens its level
    have hfirst := hjustified place literal _ hmark
    rw [hreason] at hfirst
    obtain ⟨literal', hmark', hatom⟩ := hopens.placed
    have heq : opening = place := by
      refine Nat.le_antisymm (hopens.first _ place hself) (Nat.le_of_not_lt fun hlt => ?_)
      exact absurd (hfirst.2 opening hlt _ hmark') (Nat.lt_irrefl _)
    subst heq
    rw [hmark, Option.some.injEq, Prod.mk.injEq] at hmark'
    exact Or.inl (by rw [← hatom, ← hmark'.1])
  · -- a forced literal has its anchor, and the clause that forced it was false before but for it
    have hforces := hjustified.forces hmark hreason
    obtain ⟨clause, hhas, other, hother, hne, hanchor⟩ :=
      haccounted.anchored literal _ key (List.mem_of_getElem? hmark) hlevel hreason
    obtain ⟨i, hi, level, hmark'⟩ := (hforces.of_has hhas).2 other hother hne
    obtain rfl : level = ctx.trail.level :=
      (hagrees.unique_mem (List.mem_of_getElem? hmark') hanchor rfl).2
    have hplaced : ctx.Placed other.atom i := ⟨-other, hmark', Literal.atom_neg other⟩
    have hatom : other.atom ≠ literal.atom := fun heq => by
      rw [heq] at hplaced
      exact Nat.ne_of_lt hi (hplaced.eq_place hself hagrees)
    refine Or.inr ⟨i, hi, other.atom, hplaced, (arrow_atom_iff hagrees).2
      ⟨hagrees.level?_eq_iff_placed.2 ⟨place, hself⟩, ?_,
        hagrees.level?_eq_iff_placed.2 ⟨i, hplaced⟩⟩⟩
    exact (haccounted.mem_parents_iff hforces hreason hhas).2 ⟨hatom, other, hother, rfl⟩

/-- A path leads from the decision to each atom of the level, by way of earlier ones. -/
theorem leads_decision (hplaced : ctx.Placed atom place) :
    (ctx.conflictGraph conflict).Leads (ctx.NotAfter place) (some decision.atom) (some atom) := by
  -- by induction on the place, along the arrows from earlier atoms
  induction place using Nat.strongRecOn generalizing atom with
  | ind place ih =>
    have hallowed : ctx.NotAfter place (some atom) := ⟨place, Nat.le_refl _, hplaced⟩
    rcases hplaced.eq_or_arrow hagrees hjustified haccounted hlevel hopens with
      rfl | ⟨i, hi, parent, hearlier, harrow⟩
    · exact .refl hallowed
    · have hleads := ih i hi hearlier
      exact .step (hleads.mono fun _ h => h.mono (Nat.le_of_lt hi)) harrow hallowed

end paths

/-! ## Cuts -/

/-- How far a resolution has come, going back from the conflict to a place of the trail. The
literals of the level in its clause are on all paths to the conflict and stand before the place;
from each of them the conflict is reached by way of atoms that do not; and no such atom is on all
paths. -/
structure Cut (ctx : Context ρ) (graph : Search.Digraph (Option Atom)) (root : Option Atom)
    (clause : Clause) (place : Nat) : Prop where
  cuts : ¬ graph.Leads (fun node => ∀ x ∈ ctx.ofLevel ctx.trail.level clause, node ≠ some x.atom)
    root none
  before : ∀ x ∈ ctx.ofLevel ctx.trail.level clause, ∃ i < place, ctx.Placed x.atom i
  ahead : ∀ x ∈ ctx.ofLevel ctx.trail.level clause, ∃ node, (some x.atom, node) ∈ graph.arrows ∧
    graph.Leads (ctx.NotBefore place) node none
  passed : ∀ atom i, place ≤ i → ctx.Placed atom i → graph.Leads (· ≠ some atom) root none

theorem mem_ofLevel_resolve (hlevel : 0 < ctx.trail.level) {x : Literal} :
    x ∈ ctx.ofLevel ctx.trail.level (ctx.resolve last.atom clause literals) ↔
      x.atom ≠ last.atom ∧ ctx.atoms.level? x.atom = some ctx.trail.level ∧
        (x ∈ clause ∨ x ∈ literals) := by
  rw [mem_ofLevel, mem_resolve]
  constructor
  · rintro ⟨⟨hx, hne⟩ | ⟨hx, hne, _⟩, hlevel'⟩
    · exact ⟨hne, hlevel', Or.inl hx⟩
    · exact ⟨hne, hlevel', Or.inr hx⟩
  · rintro ⟨hne, hlevel', hx | hx⟩
    · exact ⟨Or.inl ⟨hx, hne⟩, hlevel'⟩
    · refine ⟨Or.inr ⟨hx, hne, fun hzero => ?_⟩, hlevel'⟩
      rw [hlevel', Option.some.injEq] at hzero
      omega

theorem Pivot.placed_before {place' : Nat} {x : Literal}
    (hpivot : ctx.Pivot clause last place' literals) (hagrees : ctx.Agrees)
    (h : ctx.Resolvable clause) (hlevel : 0 < ctx.trail.level)
    (hx : x ∈ ctx.ofLevel ctx.trail.level (ctx.resolve last.atom clause literals)) :
    ∃ i < place', ctx.Placed x.atom i := by
  obtain ⟨hatom, hlevel', hx | hx⟩ := (mem_ofLevel_resolve hlevel).1 hx
  · -- of the clause the literal resolved away is the latest one
    obtain ⟨i, hi⟩ := h.exists_place hagrees (mem_ofLevel.2 ⟨hx, hlevel'⟩)
    exact ⟨i, lt_place_of_latest hagrees hpivot.latest hpivot.reasonAt.mark hx
      (fun heq => hatom (congrArg Literal.atom heq)) hi, -x, hi, Literal.atom_neg x⟩
  · -- its reason was false before it
    obtain ⟨i, hi, level, hmark'⟩ := hpivot.reasonAt.before x hx fun heq =>
      hatom (by rw [heq, Literal.atom_neg])
    rw [hagrees.level?_of_neg_mem (List.mem_of_getElem? hmark'), Option.some.injEq] at hlevel'
    exact ⟨i, hi, -x, hlevel' ▸ hmark', Literal.atom_neg x⟩

section cuts

variable {opening : Nat} {conflict : Clause} (hagrees : ctx.Agrees) (hjustified : ctx.Justified)
  (haccounted : ctx.Accounted log) (hlevel : 0 < ctx.trail.level)
  (hopens : ctx.Opens decision opening)

include hagrees

theorem cut_conflict (h : ctx.Resolvable conflict) :
    ctx.Cut (ctx.conflictGraph conflict) (some decision.atom) conflict ctx.trail.marked.length := by
  refine ⟨fun hleads => ?_, fun x hx => ?_, fun x hx => ?_, fun atom i hle hplaced => ?_⟩
  · -- the last arrow comes from a literal of the clause
    generalize hnode : (none : Option Atom) = node at hleads
    cases hleads with
    | refl => cases hnode
    | @step b _ hb harrow =>
      subst hnode
      obtain ⟨atom, _, rfl⟩ := ImplicationGraph.exists_source harrow
      obtain ⟨x, hx, rfl⟩ := (arrow_none_iff hagrees).1 harrow
      exact hb.allowed_right x hx rfl
  · obtain ⟨i, hmark⟩ := h.exists_place hagrees hx
    exact ⟨i, (List.getElem?_eq_some_iff.1 hmark).1, -x, hmark, Literal.atom_neg x⟩
  · exact ⟨none, (arrow_none_iff hagrees).2 ⟨x, hx, rfl⟩, .refl trivial⟩
  · obtain ⟨literal, hmark, _⟩ := hplaced
    exact absurd (List.getElem?_eq_some_iff.1 hmark).1 (Nat.not_lt.2 hle)

include hjustified haccounted

/-- The arrows to the literal resolved away come from the other literals of the reason. -/
theorem Pivot.arrow_iff {place' : Nat} (hpivot : ctx.Pivot clause last place' literals) :
    (some parent, some last.atom) ∈ (ctx.conflictGraph conflict).arrows ↔
      parent ≠ last.atom ∧ ctx.atoms.level? parent = some ctx.trail.level ∧
        ∃ other ∈ literals, other.atom = parent := by
  obtain ⟨key, hreason, hhas⟩ := hpivot.reason
  have hmark := hpivot.reasonAt.mark
  have hparents : ∀ parent, parent ∈ (ctx.graph.node (-last).atom).parents ↔
      parent ≠ (-last).atom ∧ ∃ other ∈ literals, other.atom = parent := fun parent =>
    haccounted.mem_parents_iff (hjustified.forces hmark hreason) hreason hhas
  have hplaced : ctx.Placed last.atom place' := ⟨-last, hmark, Literal.atom_neg last⟩
  simp only [Literal.atom_neg] at hparents
  rw [arrow_atom_iff hagrees, hparents, hagrees.level?_eq_iff_placed.2 ⟨place', hplaced⟩]
  simp only [true_and]
  rw [and_assoc, and_comm (b := ctx.atoms.level? parent = _)]

include hlevel hopens

/-- From the decision to a literal of the clause and on to the conflict a path leads around each
atom placed between them and the place reached. -/
theorem Cut.leads_around {x : Literal}
    (hcut : ctx.Cut (ctx.conflictGraph conflict) (some decision.atom) clause place)
    (hx : x ∈ ctx.ofLevel ctx.trail.level clause) (hplaced : ctx.Placed x.atom i) (hij : i < j)
    (hatom : ctx.Placed atom j) (hj : j < place) :
    (ctx.conflictGraph conflict).Leads (· ≠ some atom) (some decision.atom) none := by
  obtain ⟨node, harrow, hleads⟩ := hcut.ahead x hx
  have hdecision : (ctx.conflictGraph conflict).Leads (ctx.NotAfter i) (some decision.atom)
      (some x.atom) := leads_decision hagrees hjustified haccounted hlevel hopens hplaced
  exact (hdecision.mono fun node h => h.ne hij hatom hagrees).arrow harrow
    (hleads.mono fun node h => h.ne hj hatom hagrees)

omit hlevel hopens in
/-- A path around the literals of the resolvent is one around those of the clause: it does not meet
the literal resolved away, which it would have to come to from the reason. -/
theorem Pivot.leads_around {place' : Nat} {node : Option Atom} (hlevel : 0 < ctx.trail.level)
    (hpivot : ctx.Pivot clause last place' literals) (hdecision : decision.atom ≠ last.atom)
    (hleads : (ctx.conflictGraph conflict).Leads
      (fun node => ∀ x ∈ ctx.ofLevel ctx.trail.level (ctx.resolve last.atom clause literals),
        node ≠ some x.atom) (some decision.atom) node) :
    (ctx.conflictGraph conflict).Leads
      (fun node => ∀ x ∈ ctx.ofLevel ctx.trail.level clause, node ≠ some x.atom)
        (some decision.atom) node := by
  -- what is allowed beside the resolvent is allowed beside the clause, but for the pivot itself
  have hallowed : ∀ node : Option Atom,
      (∀ x ∈ ctx.ofLevel ctx.trail.level (ctx.resolve last.atom clause literals),
        node ≠ some x.atom) → node ≠ some last.atom →
          ∀ x ∈ ctx.ofLevel ctx.trail.level clause, node ≠ some x.atom := by
    intro node havoids hne x hx
    obtain ⟨hmem, hlevel'⟩ := mem_ofLevel.1 hx
    by_cases hatom : x.atom = last.atom
    · rw [hatom]
      exact hne
    · exact havoids x ((mem_ofLevel_resolve hlevel).2 ⟨hatom, hlevel', Or.inl hmem⟩)
  induction hleads with
  | refl havoids => exact .refl (hallowed _ havoids fun heq => hdecision (Option.some.inj heq))
  | @step b c hb harrow havoids ih =>
    refine .step ih harrow (hallowed c havoids ?_)
    rintro rfl
    -- the pivot is entered only from literals of its reason, which the resolvent has
    obtain ⟨parent, _, rfl⟩ := ImplicationGraph.exists_source harrow
    obtain ⟨hatom, hlevel', other, hother, rfl⟩ :=
      (hpivot.arrow_iff hagrees hjustified haccounted).1 harrow
    exact hb.allowed_right other
      ((mem_ofLevel_resolve hlevel).2 ⟨hatom, hlevel', Or.inr hother⟩) rfl

theorem Cut.resolve {place' : Nat}
    (hcut : ctx.Cut (ctx.conflictGraph conflict) (some decision.atom) clause place)
    (h : ctx.Resolvable clause) (hpivot : ctx.Pivot clause last place' literals) :
    ctx.Cut (ctx.conflictGraph conflict) (some decision.atom) (ctx.resolve last.atom clause literals)
      place' := by
  have hlast : ctx.Placed last.atom place' :=
    ⟨-last, hpivot.reasonAt.mark, Literal.atom_neg last⟩
  have hplace : place' < place := by
    obtain ⟨i, hi, hplaced⟩ := hcut.before last hpivot.mem
    exact hlast.eq_place hplaced hagrees ▸ hi
  obtain ⟨second, hsecond, hne⟩ := hpivot.several
  obtain ⟨j, hmark⟩ := h.exists_place hagrees hsecond
  have hearlier : ctx.Placed second.atom j := ⟨-second, hmark, Literal.atom_neg second⟩
  have hj : j < place' := lt_place_of_latest hagrees hpivot.latest hpivot.reasonAt.mark
    (mem_ofLevel.1 hsecond).1 hne hmark
  refine ⟨fun hleads => ?_, fun x hx => ?_, fun x hx => ?_, fun atom i hle hplaced => ?_⟩
  · refine hcut.cuts (hpivot.leads_around hagrees hjustified haccounted hlevel (fun heq => ?_) hleads)
    -- the decision is the first of its level, but the second literal stands before the last one
    have hopening := hopens.placed
    rw [heq] at hopening
    have hfirst := hopens.first _ j hearlier
    rw [hopening.eq_place hlast hagrees] at hfirst
    omega
  · exact hpivot.placed_before hagrees h hlevel hx
  · obtain ⟨hatom, hlevel', hx | hx⟩ := (mem_ofLevel_resolve hlevel).1 hx
    · obtain ⟨node, harrow, hleads⟩ := hcut.ahead x (mem_ofLevel.2 ⟨hx, hlevel'⟩)
      exact ⟨node, harrow, hleads.mono fun _ h => h.mono (Nat.le_of_lt hplace)⟩
    · -- a literal of the reason goes by way of the one resolved away
      obtain ⟨node, harrow, hleads⟩ := hcut.ahead last hpivot.mem
      refine ⟨some last.atom, (hpivot.arrow_iff hagrees hjustified haccounted).2
        ⟨hatom, hlevel', x, hx, rfl⟩, (Search.Digraph.Leads.refl ?_).arrow harrow
          (hleads.mono fun _ h => h.mono (Nat.le_of_lt hplace))⟩
      exact ⟨place', Nat.le_refl _, hlast⟩
  · by_cases hpassed : place ≤ i
    · exact hcut.passed atom i hpassed hplaced
    · rcases Nat.eq_or_lt_of_le hle with rfl | hlt
      · exact hcut.leads_around hagrees hjustified haccounted hlevel hopens hsecond hearlier hj hplaced
          (by omega)
      · exact hcut.leads_around hagrees hjustified haccounted hlevel hopens hpivot.mem hlast hlt hplaced
          (by omega)

theorem Cut.immediatelyDominates {asserted : Literal}
    (hcut : ctx.Cut (ctx.conflictGraph conflict) (some decision.atom) clause place)
    (hsingle : ctx.ofLevel ctx.trail.level clause = [asserted]) :
    (ctx.conflictGraph conflict).ImmediatelyDominates (some decision.atom) (some asserted.atom) none := by
  have hmem : asserted ∈ ctx.ofLevel ctx.trail.level clause := by simp [hsingle]
  obtain ⟨i, _, hplaced⟩ := hcut.before asserted hmem
  obtain ⟨node, harrow, hleads⟩ := hcut.ahead asserted hmem
  have hdecision : (ctx.conflictGraph conflict).Leads (ctx.NotAfter i) (some decision.atom)
      (some asserted.atom) := leads_decision hagrees hjustified haccounted hlevel hopens hplaced
  refine ⟨?_, by simp, fun hleads' => hcut.cuts (hleads'.mono fun node hne => ?_),
    fun other hne hdominates hleads' => ?_⟩
  · exact (hdecision.mono fun _ _ => trivial).arrow harrow (hleads.mono fun _ _ => trivial)
  · intro x hx
    rw [hsingle, List.mem_singleton] at hx
    rw [hx]
    exact hne
  · -- from there on no atom is on all paths
    refine hdominates (hleads'.arrow harrow (hleads.mono ?_))
    rintro node hnode rfl
    cases node with
    | none => exact hne rfl
    | some atom =>
      obtain ⟨j, hj, hplaced'⟩ := hnode
      exact hdominates (hcut.passed atom j hj hplaced')

end cuts

/-! ## Analyses -/

variable [RandomSource ρ] [LawfulRandomSource ρ]

/-- However the immediate dominators are computed, the one of a conflict is the atom of the literal
that the analysis of the conflict asserts. -/
theorem Session.firstUip
    {immediate : Search.Digraph (Option Atom) → Option Atom → Option Atom → Option (Option Atom)}
    (himmediate : Search.Digraph.GivesImmediateDominators immediate) (h : Session log (.learn key, ctx))
    (hlevel : 0 < ctx.trail.level) :
    ∃ learnt decision literals, ctx.analyse key = .ok (.learnt learnt) ∧
      ctx.trail.decision? = some decision ∧ ctx.clauses.literals? key = some literals ∧
        ctx.graph.firstUipBy immediate decision.atom (ctx.trail.top.map Literal.atom)
          (ctx.ofLevel ctx.trail.level (ctx.merge none [] literals)).atoms =
            some learnt.asserted.atom := by
  have hkept := h.kept
  have hagrees := hkept.intact.agrees
  have hconflict := hkept.poised.2
  obtain ⟨watched, hget, _⟩ := hconflict.fails
  obtain ⟨decision, hdecision, opening, hopens⟩ := exists_opens hkept.intact.filled hlevel
  have hresolvable := hconflict.resolvable hagrees hlevel hget
  -- each resolution keeps a cut between the decision and the conflict
  obtain ⟨learnt, hanalyse, _, hsingle, _, place, hcut⟩ := analyse_keeps hkept.intact hkept.justified
    (P := fun clause => ∃ place, ctx.Cut (ctx.conflictGraph (ctx.merge none [] watched.literals))
      (some decision.atom) clause place)
    (fun clause last place' literals hclause ⟨place, hcut⟩ hpivot => ⟨place',
      hcut.resolve hagrees hkept.justified hkept.accounted hlevel hopens hclause hpivot⟩)
    hconflict hlevel hget ⟨_, cut_conflict hagrees hresolvable⟩
  have hdominates := hcut.immediatelyDominates hagrees hkept.justified hkept.accounted hlevel hopens
    hsingle
  refine ⟨learnt, decision, watched.literals, hanalyse, hdecision,
    ClauseStore.literals?_of_has (ClauseStore.has_of_get? hget), ?_⟩
  have hmem : decision.atom ∈ ctx.trail.top.map Literal.atom :=
    hagrees.mem_top_iff_level?.2 (hagrees.level?_eq_iff_placed.2 ⟨opening, hopens.placed⟩)
  rw [ImplicationGraph.firstUipBy, if_pos (List.contains_iff_mem.2 hmem), ← conflictGraph,
    (himmediate _ _ _ _).2 hdominates]
  rfl

theorem Session.firstUip_diamond :
    Search.Digraph.GivesImmediateDominators
        (fun graph : Search.Digraph (Option Atom) => graph.immediateDominator?) ∧
      (∃ log, Session log (.learn (.stored .problem 5), Diamond.clash)) ∧
      0 < Diamond.clash.trail.level ∧
        ∃ learnt decision literals,
          Diamond.clash.analyse (.stored .problem 5) = .ok (.learnt learnt) ∧
          Diamond.clash.trail.decision? = some decision ∧
            Diamond.clash.clauses.literals? (.stored .problem 5) = some literals ∧
              Diamond.clash.graph.firstUip? decision.atom
                (Diamond.clash.trail.top.map Literal.atom)
                (Diamond.clash.ofLevel Diamond.clash.trail.level
                  (Diamond.clash.merge none [] literals)).atoms = some learnt.asserted.atom := by
  obtain ⟨log, hdecided⟩ := Diamond.session
  have hsession := hdecided.move (.conflict Diamond.run_propagate)
  exact ⟨Search.Digraph.givesImmediateDominators, ⟨_, hsession⟩, Diamond.level_clash_pos,
    Session.firstUip Search.Digraph.givesImmediateDominators hsession Diamond.level_clash_pos⟩

end Satisfiability.Context
