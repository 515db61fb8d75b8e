import Satisfiability.Proofs.Search.AtomTable
import Satisfiability.Proofs.Search.ImplicationGraph
import Satisfiability.Proofs.Search.Trail
import Satisfiability.Proofs.Search.WatchIndex
import Satisfiability.Proofs.Step
import Satisfiability.Context.Backjump

/-!
# Values and trail

A context agrees with itself if its table of atoms and its trail tell the same story: an atom has a
value, a level and a position exactly if the trail has the literal of that value there, marked with
that level (`Context.Agrees`). Values are given by `record` and taken back by `closeLevel`; both are
stated here by what they do to the marked literals of the trail, since everything else follows from
those.
-/

namespace Satisfiability

namespace Valuation

variable {valuation : Valuation} {literal : Literal}

theorem status_eq_holds : valuation.status literal = .holds ↔
    valuation literal.atom = some literal.positive := by
  unfold status
  cases h : valuation literal.atom with
  | none => simp
  | some value => by_cases heq : value = literal.positive <;> simp [heq]

theorem status_eq_fails : valuation.status literal = .fails ↔
    valuation literal.atom = some (!literal.positive) := by
  unfold status
  cases h : valuation literal.atom with
  | none => simp
  | some value => cases value <;> cases literal.positive <;> simp

theorem status_eq_unvalued : valuation.status literal = .unvalued ↔
    valuation literal.atom = none := by
  unfold status
  cases h : valuation literal.atom with
  | none => simp
  | some value => by_cases heq : value = literal.positive <;> simp [heq]

end Valuation

namespace Context

open Search Step

variable {ρ : Type} {ctx ctx' ctx'' : Context ρ} {literal : Literal}

/-- The table of atoms and the trail give the same values, and the clauses are about atoms of the
table. -/
structure Agrees (ctx : Context ρ) : Prop where
  coherent : ctx.atoms.Coherent
  placed : ∀ atom placement, ctx.atoms.placement? atom = some placement ↔
    ctx.trail.marked[placement.position]? = some (⟨atom, placement.value⟩, placement.level)
  stored : ∀ key clause, ctx.clauses.get? key = some clause →
    clause.literals.Nodup ∧ ∀ literal ∈ clause.literals, literal.atom < ctx.atoms.count

def Known (ctx : Context ρ) (key : ClauseKey) : Prop :=
  ∃ literals, ctx.clauses.literals? key = some literals ∧
    ∀ literal ∈ literals, literal.atom < ctx.atoms.count

structure SameClauses (ctx ctx' : Context ρ) : Prop where
  config : ctx'.config = ctx.config
  state : ctx'.state = ctx.state
  clauses : ctx'.clauses = ctx.clauses
  watches : ctx'.watches = ctx.watches
  count : ctx'.atoms.count = ctx.atoms.count
  name : ∀ atom, ctx'.atoms.name? atom = ctx.atoms.name? atom

theorem SameClauses.refl (ctx : Context ρ) : ctx.SameClauses ctx :=
  ⟨rfl, rfl, rfl, rfl, rfl, fun _ => rfl⟩

theorem SameClauses.trans (h : ctx.SameClauses ctx') (h' : ctx'.SameClauses ctx'') :
    ctx.SameClauses ctx'' :=
  ⟨h'.config.trans h.config, h'.state.trans h.state, h'.clauses.trans h.clauses,
    h'.watches.trans h.watches, h'.count.trans h.count,
    fun atom => (h'.name atom).trans (h.name atom)⟩

namespace Agrees

theorem placement_of_mark (h : ctx.Agrees) {index level : Nat}
    (hmark : ctx.trail.marked[index]? = some (literal, level)) :
    ctx.atoms.placement? literal.atom = some ⟨literal.positive, level, index⟩ :=
  (h.placed literal.atom ⟨literal.positive, level, index⟩).2 hmark

theorem valuation_eq_some (h : ctx.Agrees) {atom : Atom} {value : Bool} :
    ctx.valuation atom = some value ↔ ∃ level, (⟨atom, value⟩, level) ∈ ctx.trail.marked := by
  simp only [valuation, AtomTable.valuation, Option.map_eq_some_iff]
  constructor
  · rintro ⟨placement, hplacement, rfl⟩
    exact ⟨_, List.mem_of_getElem? ((h.placed _ _).1 hplacement)⟩
  · rintro ⟨level, hmem⟩
    obtain ⟨index, hmark⟩ := List.mem_iff_getElem?.1 hmem
    exact ⟨_, h.placement_of_mark hmark, rfl⟩

theorem holds_iff (h : ctx.Agrees) :
    ctx.valuation.status literal = .holds ↔ ∃ level, (literal, level) ∈ ctx.trail.marked := by
  rw [Valuation.status_eq_holds, h.valuation_eq_some]

theorem fails_iff (h : ctx.Agrees) :
    ctx.valuation.status literal = .fails ↔ ∃ level, (-literal, level) ∈ ctx.trail.marked := by
  rw [Valuation.status_eq_fails, h.valuation_eq_some]
  rfl

theorem unique (h : ctx.Agrees) {literal' : Literal} {i j level level' : Nat}
    (hmark : ctx.trail.marked[i]? = some (literal, level))
    (hmark' : ctx.trail.marked[j]? = some (literal', level'))
    (hatom : literal.atom = literal'.atom) : literal = literal' ∧ level = level' ∧ i = j := by
  have hplacement := h.placement_of_mark hmark
  rw [hatom, h.placement_of_mark hmark'] at hplacement
  cases literal
  cases literal'
  simp_all

theorem unique_mem (h : ctx.Agrees) {literal' : Literal} {level level' : Nat}
    (hmem : (literal, level) ∈ ctx.trail.marked) (hmem' : (literal', level') ∈ ctx.trail.marked)
    (hatom : literal.atom = literal'.atom) : literal = literal' ∧ level = level' := by
  obtain ⟨i, hi⟩ := List.mem_iff_getElem?.1 hmem
  obtain ⟨j, hj⟩ := List.mem_iff_getElem?.1 hmem'
  obtain ⟨hliteral, hlevel, _⟩ := h.unique hi hj hatom
  exact ⟨hliteral, hlevel⟩

theorem not_both (h : ctx.Agrees) {level level' : Nat}
    (hmem : (literal, level) ∈ ctx.trail.marked) : (-literal, level') ∉ ctx.trail.marked := by
  intro hmem'
  have heq := (h.unique_mem hmem hmem' rfl).1
  have := congrArg Literal.positive heq
  simp at this

theorem atom_lt (h : ctx.Agrees) {level : Nat} (hmem : (literal, level) ∈ ctx.trail.marked) :
    literal.atom < ctx.atoms.count := by
  obtain ⟨index, hmark⟩ := List.mem_iff_getElem?.1 hmem
  exact AtomTable.lt_count_of_placement (h.placement_of_mark hmark)

theorem placement_eq_none (h : ctx.Agrees) {atom : Atom} :
    ctx.atoms.placement? atom = none ↔ ∀ mark ∈ ctx.trail.marked, mark.1.atom ≠ atom := by
  constructor
  · rintro hnone ⟨literal, level⟩ hmem rfl
    obtain ⟨index, hmark⟩ := List.mem_iff_getElem?.1 hmem
    rw [h.placement_of_mark hmark] at hnone
    exact absurd hnone (by simp)
  · intro hmarks
    rcases hplacement : ctx.atoms.placement? atom with _ | placement
    · rfl
    · have hmark := (h.placed _ _).1 hplacement
      exact absurd rfl (hmarks _ (List.mem_of_getElem? hmark))

theorem unvalued_iff (h : ctx.Agrees) : ctx.valuation.status literal = .unvalued ↔
    ∀ mark ∈ ctx.trail.marked, mark.1.atom ≠ literal.atom := by
  rw [Valuation.status_eq_unvalued, valuation, AtomTable.valuation_eq_none, h.placement_eq_none]

theorem cases (h : ctx.Agrees) (literal : Literal) :
    (∃ level, (literal, level) ∈ ctx.trail.marked) ∨
      (∃ level, (-literal, level) ∈ ctx.trail.marked) ∨
        ∀ mark ∈ ctx.trail.marked, mark.1.atom ≠ literal.atom := by
  rw [← h.holds_iff, ← h.fails_iff, ← h.unvalued_iff]
  cases ctx.valuation.status literal <;> simp

theorem level?_eq_some (h : ctx.Agrees) {atom : Atom} {level : Nat} :
    ctx.atoms.level? atom = some level ↔
      ∃ value, (⟨atom, value⟩, level) ∈ ctx.trail.marked := by
  simp only [AtomTable.level?, Option.map_eq_some_iff]
  constructor
  · rintro ⟨placement, hplacement, rfl⟩
    exact ⟨_, List.mem_of_getElem? ((h.placed _ _).1 hplacement)⟩
  · rintro ⟨value, hmem⟩
    obtain ⟨index, hmark⟩ := List.mem_iff_getElem?.1 hmem
    exact ⟨_, h.placement_of_mark hmark, rfl⟩

theorem level?_of_mem (h : ctx.Agrees) {level : Nat}
    (hmem : (literal, level) ∈ ctx.trail.marked) :
    ctx.atoms.level? literal.atom = some level :=
  h.level?_eq_some.2 ⟨literal.positive, hmem⟩

theorem level?_of_neg_mem (h : ctx.Agrees) {level : Nat}
    (hmem : (-literal, level) ∈ ctx.trail.marked) :
    ctx.atoms.level? literal.atom = some level := by
  rw [← Literal.atom_neg]
  exact h.level?_of_mem hmem

theorem position?_of_mark (h : ctx.Agrees) {index level : Nat}
    (hmark : ctx.trail.marked[index]? = some (literal, level)) :
    ctx.atoms.position? literal.atom = some index := by
  rw [AtomTable.position?, h.placement_of_mark hmark]
  rfl

theorem nodup (h : ctx.Agrees) : (ctx.trail.marked.map (·.1.atom)).Nodup := by
  rw [List.Nodup, List.pairwise_map, List.pairwise_iff_getElem]
  intro i j hi hj hlt hatom
  have := (h.unique (List.getElem?_eq_getElem hi) (List.getElem?_eq_getElem hj) hatom).2.2
  omega

theorem length_le (h : ctx.Agrees) : ctx.trail.marked.length ≤ ctx.atoms.count := by
  have hsubset : ctx.trail.marked.map (·.1.atom) ⊆ List.range ctx.atoms.count := by
    intro atom hatom
    obtain ⟨mark, hmark, rfl⟩ := List.mem_map.1 hatom
    exact List.mem_range.2 (h.atom_lt hmark)
  simpa using h.nodup.length_le_of_subset hsubset

theorem count_le (h : ctx.Agrees) :
    ctx.atoms.count ≤ ctx.atoms.unvalued.length + ctx.trail.marked.length := by
  have hsubset : List.range ctx.atoms.count ⊆
      ctx.atoms.unvalued ++ ctx.trail.marked.map (·.1.atom) := by
    intro atom hatom
    rw [List.mem_append, AtomTable.mem_unvalued, h.placement_eq_none, List.mem_map]
    by_cases hmark : ∃ mark ∈ ctx.trail.marked, mark.1.atom = atom
    · exact Or.inr hmark
    · exact Or.inl ⟨List.mem_range.1 hatom, fun mark hmem heq => hmark ⟨mark, hmem, heq⟩⟩
  have hlength := List.nodup_range.length_le_of_subset hsubset
  simpa using hlength

end Agrees

/-! ## Giving values -/

/-- The atoms of the clause that is the reason for a value. A clause of one literal lists none. -/
def reasonAtoms (ctx : Context ρ) : Option ClauseKey → List Atom
  | some (.stored source index) =>
    ((ctx.clauses.get? (.stored source index)).map fun clause => clause.literals.atoms).getD []
  | _ => []

structure Recorded (ctx : Context ρ) (literal : Literal) (reason : Option ClauseKey)
    (ctx' : Context ρ) : Prop where
  agrees : ctx'.Agrees
  same : ctx.SameClauses ctx'
  trail : ctx'.trail = ctx.trail.push literal
  known : ∀ key, reason = some key → ctx.Known key
  parents : ∀ atom parent, parent ∈ (ctx'.graph.node atom).parents ↔
    if atom = literal.atom then parent ∈ ctx.reasonAtoms reason ∧ parent ≠ atom
    else parent ∈ (ctx.graph.node atom).parents
  children : ∀ atom child, child ∈ (ctx'.graph.node atom).children ↔
    (child = literal.atom ∧ atom ∈ ctx.reasonAtoms reason ∧ atom ≠ child) ∨
      child ∈ (ctx.graph.node atom).children
  reason : ∀ atom, ctx'.graph.reason? atom =
    if atom = literal.atom then reason else ctx.graph.reason? atom

theorem Recorded.marked {reason : Option ClauseKey} (h : ctx.Recorded literal reason ctx') :
    ctx'.trail.marked = ctx.trail.marked ++ [(literal, ctx.trail.level)] := by
  rw [h.trail, Trail.marked_push]

theorem Recorded.level {reason : Option ClauseKey} (h : ctx.Recorded literal reason ctx') :
    ctx'.trail.level = ctx.trail.level := by
  rw [h.trail, Trail.level_push]

theorem Recorded.reason_eq {reason : Option ClauseKey} (h : ctx.Recorded literal reason ctx')
    (hagrees : ctx.Agrees) (hnone : ctx.atoms.placement? literal.atom = none) :
    ∀ mark ∈ ctx.trail.marked, ctx'.graph.reason? mark.1.atom = ctx.graph.reason? mark.1.atom := by
  intro mark hmark
  rw [h.reason, if_neg (hagrees.placement_eq_none.1 hnone mark hmark)]

theorem getElem?_concat {α : Type} (l : List α) (a b : α) (index : Nat) :
    (l ++ [a])[index]? = some b ↔ l[index]? = some b ∨ (index = l.length ∧ a = b) := by
  rw [List.getElem?_append]
  split
  · rename_i hlt
    simp [Nat.ne_of_lt hlt]
  · rename_i hle
    rw [List.getElem?_eq_none (Nat.le_of_not_lt hle), List.getElem?_singleton]
    by_cases heq : index = l.length
    · simp [heq]
    · have hne : index - l.length ≠ 0 := by omega
      simp [heq, hne]

section record

variable (h : ctx.Agrees) {reason : Option ClauseKey} {atoms : AtomTable Float}
  (hnone : ctx.atoms.placement? literal.atom = none)
  (hplacement : ∀ other, atoms.placement? other = if other = literal.atom then
    some ⟨literal.positive, ctx.trail.level, ctx.trail.size⟩ else ctx.atoms.placement? other)

include h hnone hplacement

theorem Agrees.placed_push (atom : Atom) (placement : Placement) :
    atoms.placement? atom = some placement ↔
      (ctx.trail.push literal).marked[placement.position]? =
        some (⟨atom, placement.value⟩, placement.level) := by
  obtain ⟨value, level, position⟩ := placement
  have hplaced := h.placed atom ⟨value, level, position⟩
  simp only at hplaced
  simp only [hplacement, Trail.marked_push, getElem?_concat, ← hplaced, Trail.length_marked]
  by_cases heq : atom = literal.atom
  · subst heq
    rw [if_pos rfl, hnone]
    cases literal
    simp only [Option.some.injEq, Placement.mk.injEq, reduceCtorEq, false_or, Prod.mk.injEq,
      Literal.mk.injEq, true_and]
    grind
  · rw [if_neg heq]
    refine ⟨Or.inl, fun hor => hor.resolve_right ?_⟩
    rintro ⟨_, hpair⟩
    exact heq (congrArg (·.1.atom) hpair).symm

theorem Agrees.recorded (hcoherent : atoms.Coherent) (hcount : atoms.count = ctx.atoms.count)
    (hname : ∀ atom, atoms.name? atom = ctx.atoms.name? atom)
    (hreason : ∀ key, reason = some key → ctx.Known key) :
    ctx.Recorded literal reason { ctx with
      atoms
      trail := ctx.trail.push literal
      graph := ctx.graph.note literal.atom reason (ctx.reasonAtoms reason) } := by
  refine ⟨⟨hcoherent, h.placed_push hnone hplacement, fun key clause hclause => ?_⟩,
    ⟨rfl, rfl, rfl, rfl, hcount, hname⟩, rfl, hreason, fun atom parent => ?_, fun atom child => ?_,
    fun atom => ImplicationGraph.reason?_note ..⟩
  · rw [hcount]
    exact h.stored key clause hclause
  · refine (ImplicationGraph.mem_parents_note ..).trans ?_
    by_cases heq : atom = literal.atom
    · rw [if_pos heq, if_pos heq, heq]
    · rw [if_neg heq, if_neg heq]
  · refine (ImplicationGraph.mem_children_note ..).trans (or_congr_left ?_)
    exact and_congr_right fun hchild => hchild ▸ Iff.rfl

end record

theorem record_spec (h : ctx.Agrees) {reason : Option ClauseKey}
    (hatom : literal.atom < ctx.atoms.count)
    (hnone : ctx.atoms.placement? literal.atom = none)
    (hreason : ∀ key, reason = some key → ctx.Known key) :
    Ensures (record literal reason) ctx (fun _ ctx' => ctx.Recorded literal reason ctx') never := by
  obtain ⟨atoms, hset, hcoherent, hcount, hname, hplacement⟩ :=
    h.coherent.setValue?_spec hatom ctx.trail.level ctx.trail.size
  have hrecorded := h.recorded hnone hplacement hcoherent hcount hname hreason
  unfold record
  simp only [ensures_bind, ensures_get]
  unfold reasonAtoms at hrecorded
  split
  · -- the reason is a clause that is stored
    rename_i source index
    obtain ⟨literals, hliterals, _⟩ := hreason _ rfl
    obtain ⟨clause, hclause, _⟩ := Option.map_eq_some_iff.1 hliterals
    simp only [hclause, Option.map_some, Option.getD_some] at hrecorded
    simp only [hclause, hset, entry, ensures_bind, ensures_pure, ensures_set]
    exact hrecorded
  · rename_i hunstored
    simp only [hset, entry, ensures_bind, ensures_pure, ensures_set]
    split at hrecorded
    · exact absurd rfl (hunstored _ _)
    · exact hrecorded

/-! ## Edges -/

/-- The graph has edges between atoms with values only. Each is noted at both of its ends, and leads
to no lower level. -/
structure Linked (ctx : Context ρ) : Prop where
  inverse : ∀ atom parent, atom ∈ (ctx.graph.node parent).children ↔
    parent ∈ (ctx.graph.node atom).parents
  rising : ∀ atom parent, parent ∈ (ctx.graph.node atom).parents → ∃ low high,
    ctx.atoms.level? parent = some low ∧ ctx.atoms.level? atom = some high ∧ low ≤ high
  bare : ∀ atom, ctx.atoms.placement? atom = none → ctx.graph.reason? atom = none

theorem Linked.mono (h : ctx.Linked) (hnode : ∀ atom, ctx'.graph.node atom = ctx.graph.node atom)
    (hplacement : ∀ atom, ctx'.atoms.placement? atom = ctx.atoms.placement? atom) : ctx'.Linked := by
  refine ⟨fun atom parent => ?_, fun atom parent hparent => ?_, fun atom hnone => ?_⟩
  · rw [hnode, hnode]
    exact h.inverse atom parent
  · rw [hnode] at hparent
    simp only [AtomTable.level?, hplacement]
    exact h.rising atom parent hparent
  · rw [hplacement] at hnone
    rw [ImplicationGraph.reason?, hnode]
    exact h.bare atom hnone

theorem Linked.node_eq (h : ctx.Linked) {atom : Atom} (hnone : ctx.atoms.placement? atom = none) :
    ctx.graph.node atom = {} := by
  have hlevel : ctx.atoms.level? atom = none := by rw [AtomTable.level?, hnone, Option.map_none]
  have hparents : (ctx.graph.node atom).parents = ∅ := by
    refine IndexSet.ext_mem fun parent => iff_of_false (fun hparent => ?_) IndexSet.not_mem_empty
    obtain ⟨_, _, _, hhigh, _⟩ := h.rising atom parent hparent
    rw [hlevel] at hhigh
    cases hhigh
  have hchildren : (ctx.graph.node atom).children = ∅ := by
    refine IndexSet.ext_mem fun child => iff_of_false (fun hchild => ?_) IndexSet.not_mem_empty
    obtain ⟨_, _, hlow, _⟩ := h.rising child atom ((h.inverse child atom).1 hchild)
    rw [hlevel] at hlow
    cases hlow
  exact ImplicationNode.ext (h.bare atom hnone) hparents hchildren

theorem Recorded.linked {reason : Option ClauseKey} (hrecorded : ctx.Recorded literal reason ctx')
    (h : ctx.Linked) (hagrees : ctx.Agrees) (hnone : ctx.atoms.placement? literal.atom = none)
    (hvalued : ∀ parent ∈ ctx.reasonAtoms reason, parent ≠ literal.atom →
      ∃ mark ∈ ctx.trail.marked, mark.1.atom = parent) : ctx'.Linked := by
  have hlevel : ∀ {other : Literal} {level : Nat}, (other, level) ∈ ctx.trail.marked →
      ctx'.atoms.level? other.atom = some level := by
    intro other level hmark
    refine hrecorded.agrees.level?_of_mem ?_
    rw [hrecorded.marked]
    exact List.mem_append_left _ hmark
  have hkeep : ∀ {atom level}, ctx.atoms.level? atom = some level →
      ctx'.atoms.level? atom = some level := by
    intro atom level hsome
    obtain ⟨value, hmark⟩ := hagrees.level?_eq_some.1 hsome
    exact hlevel hmark
  have hnew : ctx'.atoms.level? literal.atom = some ctx.trail.level := by
    refine hrecorded.agrees.level?_of_mem ?_
    rw [hrecorded.marked]
    exact List.mem_append_right _ List.mem_cons_self
  -- before the literal had a value, its atom had no edges
  have hbare := h.node_eq hnone
  refine ⟨fun atom parent => ?_, fun atom parent hparent => ?_, fun atom hnone' => ?_⟩
  · rw [hrecorded.children, hrecorded.parents, h.inverse]
    by_cases heq : atom = literal.atom
    · have hold : parent ∉ (ctx.graph.node atom).parents := by
        rw [heq, hbare]
        exact IndexSet.not_mem_empty
      rw [if_pos heq]
      exact ⟨fun hor => (hor.resolve_right hold).2, fun hmem => Or.inl ⟨heq, hmem⟩⟩
    · rw [if_neg heq]
      exact or_iff_right fun hand => heq hand.1
  · rw [hrecorded.parents] at hparent
    split at hparent
    · rename_i heq
      rw [heq] at hparent ⊢
      obtain ⟨⟨other, level⟩, hmark, rfl⟩ := hvalued parent hparent.1 hparent.2
      exact ⟨level, _, hlevel hmark, hnew, Trail.level_le hmark⟩
    · obtain ⟨low, high, hlow, hhigh, hle⟩ := h.rising atom parent hparent
      exact ⟨low, high, hkeep hlow, hkeep hhigh, hle⟩
  · have hne : atom ≠ literal.atom := by
      rintro rfl
      rw [AtomTable.level?, hnone'] at hnew
      cases hnew
    rw [hrecorded.reason, if_neg hne]
    refine h.bare atom (hagrees.placement_eq_none.2 fun mark hmark hatom => ?_)
    have hsome := hlevel (show (mark.1, mark.2) ∈ ctx.trail.marked from hmark)
    rw [hatom, AtomTable.level?, hnone'] at hsome
    cases hsome

/-! ## Taking values back -/

structure Cleared (ctx : Context ρ) (atoms : List Atom) (ctx' : Context ρ) : Prop where
  same : ctx.SameClauses ctx'
  trail : ctx'.trail = ctx.trail
  coherent : ctx'.atoms.Coherent
  placement : ∀ atom, ctx'.atoms.placement? atom =
    if atom ∈ atoms then none else ctx.atoms.placement? atom
  reason : ∀ atom, ctx'.graph.reason? atom =
    if atom ∈ atoms then none else ctx.graph.reason? atom
  parents : ∀ atom, (ctx'.graph.node atom).parents =
    if atom ∈ atoms then ∅ else (ctx.graph.node atom).parents
  children : ∀ atom child, child ∈ (ctx'.graph.node atom).children ↔
    atom ∉ atoms ∧ child ∈ (ctx.graph.node atom).children ∧
      ¬ (child ∈ atoms ∧ atom ∈ (ctx.graph.node child).parents)

theorem forM_clear_spec (literals : List Literal) (hcoherent : ctx.atoms.Coherent)
    (hatoms : ∀ literal ∈ literals, literal.atom < ctx.atoms.count) :
    Ensures (literals.forM clear) ctx
      (fun _ ctx' => ctx.Cleared (literals.map Literal.atom) ctx') never := by
  induction literals generalizing ctx with
  | nil =>
    rw [ensures_forM_nil]
    exact ⟨.refl _, rfl, hcoherent, fun _ => by simp, fun _ => by simp, fun _ => by simp,
      fun _ _ => by simp⟩
  | cons literal rest ih =>
    obtain ⟨atoms, hdrop, hcoherent', hcount, hname, hplacement⟩ :=
      hcoherent.dropValue?_spec (hatoms literal List.mem_cons_self)
    rw [ensures_forM_cons]
    unfold clear
    simp only [ensures_bind, ensures_get, hdrop, entry, ensures_pure, ensures_set]
    have hrest : ∀ other ∈ rest, other.atom < atoms.count := by
      intro other hother
      rw [hcount]
      exact hatoms other (List.mem_cons_of_mem _ hother)
    refine ensures_of_never (ih hcoherent' hrest) ?_
    intro _ ctx' hcleared
    have hsame : ctx.SameClauses { ctx with atoms, graph := ctx.graph.reset literal.atom } :=
      ⟨rfl, rfl, rfl, rfl, hcount, hname⟩
    refine ⟨hsame.trans hcleared.same, hcleared.trail, hcleared.coherent, ?_, ?_, ?_, ?_⟩
    · intro atom
      rw [hcleared.placement, hplacement]
      simp only [List.map_cons, List.mem_cons]
      grind
    · intro atom
      rw [hcleared.reason, ImplicationGraph.reason?_reset]
      simp only [List.map_cons, List.mem_cons]
      grind
    · intro atom
      rw [hcleared.parents, (ImplicationGraph.node_reset ..).2]
      simp only [List.map_cons, List.mem_cons]
      grind
    · intro atom child
      rw [hcleared.children, ImplicationGraph.mem_children_reset,
        (ImplicationGraph.node_reset ..).2]
      simp only [List.map_cons, List.mem_cons]
      by_cases hchild : child = literal.atom
      · -- what the reset took from the parents of the atom is not there to be taken again
        simp only [hchild, if_pos, IndexSet.not_mem_empty]
        grind
      · simp only [hchild, if_neg, not_false_iff]
        grind

/-- An edge between atoms that keep their values is kept, if no edge leads to such an atom from
another one. -/
theorem Cleared.linked {atoms : List Atom} (hcleared : ctx.Cleared atoms ctx') (h : ctx.Linked)
    (hclosed : ∀ atom parent, parent ∈ (ctx.graph.node atom).parents → parent ∈ atoms →
      atom ∈ atoms) : ctx'.Linked := by
  have hparents : ∀ atom parent, parent ∈ (ctx'.graph.node atom).parents ↔
      atom ∉ atoms ∧ parent ∈ (ctx.graph.node atom).parents := by
    intro atom parent
    rw [hcleared.parents]
    split
    · rename_i hmem
      exact iff_of_false IndexSet.not_mem_empty fun hand => hand.1 hmem
    · rename_i hmem
      exact (and_iff_right hmem).symm
  -- an edge stays exactly if the child does: with a parent all its children are cleared
  refine ⟨fun atom parent => ?_, fun atom parent hparent => ?_, fun atom hnone => ?_⟩
  · rw [hcleared.children, hparents, h.inverse]
    constructor
    · rintro ⟨_, hparent, hkept⟩
      exact ⟨fun hmem => hkept ⟨hmem, hparent⟩, hparent⟩
    · rintro ⟨hkept, hparent⟩
      exact ⟨fun hmem => hkept (hclosed atom parent hparent hmem), hparent, fun hand => hkept hand.1⟩
  · obtain ⟨hkept, hparent⟩ := (hparents atom parent).1 hparent
    have hkept' : parent ∉ atoms := fun hmem => hkept (hclosed atom parent hparent hmem)
    simp only [AtomTable.level?, hcleared.placement, if_neg hkept, if_neg hkept']
    exact h.rising atom parent hparent
  · rw [hcleared.reason]
    split
    · rfl
    · rename_i hkept
      rw [hcleared.placement, if_neg hkept] at hnone
      exact h.bare atom hnone

/-- What a return to a level leaves: the literals of that level and those below, with their
reasons. -/
structure Returned (ctx : Context ρ) (target : Nat) (ctx' : Context ρ) : Prop where
  agrees : ctx'.Agrees
  same : ctx.SameClauses ctx'
  level : ctx'.trail.level = target
  marked : ctx'.trail.marked = Trail.upTo target ctx.trail.marked
  reason : ∀ mark ∈ ctx'.trail.marked,
    ctx'.graph.reason? mark.1.atom = ctx.graph.reason? mark.1.atom
  forgotten : ∀ atom, (ctx'.graph.reason? atom = ctx.graph.reason? atom ∧
      (ctx'.graph.node atom).parents = (ctx.graph.node atom).parents) ∨
    (ctx'.graph.reason? atom = none ∧ (ctx'.graph.node atom).parents = ∅)
  filled : ctx.trail.Filled → ctx'.trail.Filled
  linked : ctx.Linked → ctx'.Linked

theorem Returned.refl (h : ctx.Agrees) : ctx.Returned ctx.trail.level ctx :=
  ⟨h, .refl _, rfl, (Trail.upTo_eq_self fun _ => Trail.level_le).symm, fun _ _ => rfl,
    fun _ => Or.inl ⟨rfl, rfl⟩, id, id⟩

theorem Returned.reason_of {target : Nat} (h : ctx.Returned target ctx') {atom : Atom}
    {key : ClauseKey} (hkey : ctx'.graph.reason? atom = some key) :
    ctx.graph.reason? atom = some key := by
  rcases h.forgotten atom with ⟨hreason, _⟩ | ⟨hnone, _⟩
  · rw [← hreason, hkey]
  · rw [hnone] at hkey
    exact absurd hkey (by simp)

theorem Returned.trans {high low : Nat} (h : ctx.Returned high ctx') (h' : ctx'.Returned low ctx'')
    (hle : low ≤ high) : ctx.Returned low ctx'' := by
  refine ⟨h'.agrees, h.same.trans h'.same, h'.level, ?_, ?_, fun atom => ?_, h'.filled ∘ h.filled,
    h'.linked ∘ h.linked⟩
  · rw [h'.marked, h.marked, Trail.upTo_upTo hle]
  · intro mark hmark
    have hmem : mark ∈ ctx'.trail.marked := by
      rw [h'.marked] at hmark
      exact (Trail.mem_upTo.1 hmark).1
    rw [h'.reason mark hmark, h.reason mark hmem]
  · rcases h'.forgotten atom with ⟨hreason, hparents⟩ | hnone
    · rw [hreason, hparents]
      exact h.forgotten atom
    · exact Or.inr hnone

section closing

variable (h : ctx.Agrees) (hlevel : 0 < ctx.trail.level)

include h hlevel

theorem Agrees.mem_closed_iff (atom : Atom) :
    atom ∈ ctx.trail.closeLevel.1.map Literal.atom ↔
      ctx.atoms.level? atom = some ctx.trail.level := by
  have hmarked := Trail.marked_closeLevel hlevel
  constructor
  · intro hmem
    obtain ⟨literal, hliteral, rfl⟩ := List.mem_map.1 hmem
    refine h.level?_of_mem ?_
    rw [hmarked]
    exact List.mem_append_right _ (List.mem_map.2 ⟨literal, hliteral, rfl⟩)
  · intro hnewest
    obtain ⟨value, hmark⟩ := h.level?_eq_some.1 hnewest
    rw [hmarked] at hmark
    rcases List.mem_append.1 hmark with hbelow | hclosed
    · have hle := Trail.level_le hbelow
      rw [Trail.level_closeLevel] at hle
      simp only at hle
      omega
    · obtain ⟨literal, hliteral, heq⟩ := List.mem_map.1 hclosed
      cases heq
      exact List.mem_map.2 ⟨_, hliteral, rfl⟩

theorem Agrees.not_mem_closed {mark : Literal × Nat}
    (hmark : mark ∈ ctx.trail.closeLevel.2.marked) :
    mark.1.atom ∉ ctx.trail.closeLevel.1.map Literal.atom := by
  have hold : mark ∈ ctx.trail.marked := by
    rw [Trail.marked_closeLevel hlevel]
    exact List.mem_append_left _ hmark
  rw [h.mem_closed_iff hlevel, h.level?_of_mem hold, Option.some.injEq]
  have hle := Trail.level_le hmark
  rw [Trail.level_closeLevel] at hle
  omega

variable (hcleared : Cleared { ctx with trail := ctx.trail.closeLevel.2 }
  (ctx.trail.closeLevel.1.map Literal.atom) ctx')

include hcleared

/-- Once the literals that are closed have lost their values, values and trail agree again. -/
theorem Cleared.agrees_closed : ctx'.Agrees := by
  have htrail : ctx'.trail = ctx.trail.closeLevel.2 := hcleared.trail
  refine ⟨hcleared.coherent, fun atom placement => ?_, fun key clause hclause => ?_⟩
  · rw [hcleared.placement, htrail]
    split
    · rename_i hclosed
      simp only [reduceCtorEq, false_iff]
      exact fun hmark => h.not_mem_closed hlevel (List.mem_of_getElem? hmark) hclosed
    · rename_i hopen
      have hplaced := h.placed atom placement
      rw [Trail.marked_closeLevel hlevel, List.getElem?_append] at hplaced
      rw [show ctx.atoms.placement? atom = some placement ↔ _ from hplaced]
      split
      · exact Iff.rfl
      · -- what stood behind the literals that remain is closed
        rename_i hle
        rw [List.getElem?_eq_none (Nat.le_of_not_lt hle)]
        simp only [List.getElem?_map, Option.map_eq_some_iff, Prod.mk.injEq, reduceCtorEq,
          iff_false]
        rintro ⟨literal, hliteral, rfl, _⟩
        exact hopen (List.mem_map.2 ⟨_, List.mem_of_getElem? hliteral, rfl⟩)
  · have hsame := hcleared.same
    rw [hsame.clauses] at hclause
    rw [hsame.count]
    exact h.stored key clause hclause

theorem Cleared.linked_closed (hlinked : ctx.Linked) : ctx'.Linked := by
  have hlinked' : Linked { ctx with trail := ctx.trail.closeLevel.2 } :=
    hlinked.mono (fun _ => rfl) fun _ => rfl
  refine hcleared.linked hlinked' fun atom parent hparent hmem => ?_
  obtain ⟨low, high, hlow, hhigh, hle⟩ := hlinked.rising atom parent hparent
  rw [h.mem_closed_iff hlevel] at hmem ⊢
  rw [hmem, Option.some.injEq] at hlow
  obtain ⟨value, hmark⟩ := h.level?_eq_some.1 hhigh
  have hle' := Trail.level_le hmark
  simp only at hle'
  rw [hhigh, Option.some.injEq]
  omega

theorem Cleared.returned : ctx.Returned (ctx.trail.level - 1) ctx' := by
  have htrail : ctx'.trail = ctx.trail.closeLevel.2 := hcleared.trail
  refine ⟨hcleared.agrees_closed h hlevel, ⟨hcleared.same.config, hcleared.same.state,
    hcleared.same.clauses, hcleared.same.watches, hcleared.same.count, hcleared.same.name⟩, ?_, ?_,
    fun mark hmark => ?_, fun atom => ?_, fun hfilled => htrail ▸ hfilled.closeLevel,
    hcleared.linked_closed h hlevel⟩
  · rw [htrail, Trail.level_closeLevel]
  · rw [htrail, Trail.marked_closeLevel_upTo hlevel]
  · rw [htrail] at hmark
    rw [hcleared.reason, if_neg (h.not_mem_closed hlevel hmark)]
  · rw [hcleared.reason, hcleared.parents]
    by_cases hclosed : atom ∈ ctx.trail.closeLevel.1.map Literal.atom
    · rw [if_pos hclosed, if_pos hclosed]
      exact Or.inr ⟨rfl, rfl⟩
    · rw [if_neg hclosed, if_neg hclosed]
      exact Or.inl ⟨rfl, rfl⟩

omit hcleared

theorem closeLevel_spec :
    Ensures closeLevel ctx (fun _ ctx' => ctx.Returned (ctx.trail.level - 1) ctx') never := by
  have hatoms : ∀ literal ∈ ctx.trail.closeLevel.1, literal.atom < ctx.atoms.count := by
    intro literal hliteral
    have hclosed := (h.mem_closed_iff hlevel literal.atom).1 (List.mem_map.2 ⟨literal, hliteral, rfl⟩)
    obtain ⟨value, hmark⟩ := h.level?_eq_some.1 hclosed
    have hlt := h.atom_lt hmark
    exact hlt
  have hcoherent : ({ ctx with trail := ctx.trail.closeLevel.2 } : Context ρ).atoms.Coherent :=
    h.coherent
  unfold closeLevel
  simp only [ensures_bind, ensures_modifyGet]
  -- the literals of the level lose their values one after another
  refine ensures_of_never (forM_clear_spec _ hcoherent hatoms) ?_
  exact fun _ _ hcleared => hcleared.returned h hlevel

end closing

theorem closeLevels_spec (h : ctx.Agrees) (count : Nat) (hcount : count ≤ ctx.trail.level) :
    Ensures (closeLevels count) ctx
      (fun _ ctx' => ctx.Returned (ctx.trail.level - count) ctx') never := by
  induction count generalizing ctx with
  | zero => exact Returned.refl h
  | succ count ih =>
    unfold closeLevels
    rw [ensures_bind]
    refine ensures_of_never (closeLevel_spec h (by omega)) ?_
    intro _ ctx' hclosed
    have hlevel := hclosed.level
    refine ensures_of_never (ih hclosed.agrees (by omega)) ?_
    intro _ ctx'' hrest
    have heq : ctx'.trail.level - count = ctx.trail.level - (count + 1) := by omega
    rw [heq] at hrest
    exact hclosed.trans hrest (by omega)

theorem backjump_spec (h : ctx.Agrees) {target : Nat} (htarget : target ≤ ctx.trail.level) :
    Ensures (backjump target) ctx (fun _ ctx' => ctx.Returned target ctx') never := by
  unfold backjump
  rw [ensures_bind, ensures_get]
  have hspec := closeLevels_spec h (ctx.trail.level - target) (Nat.sub_le _ _)
  rwa [Nat.sub_sub_self htarget] at hspec

end Context

end Satisfiability
