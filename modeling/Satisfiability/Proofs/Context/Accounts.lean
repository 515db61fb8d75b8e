import Satisfiability.Proofs.Context.Invariant
import Satisfiability.Proofs.Search.Shelves

/-!
# Reasons accounted for

What a search keeps beyond its soundness (`Accounted`). The parents of an atom are the other atoms
of its reason, and the children the other way around. A literal forced above the ground has its
anchor on its own level: another literal of its reason became false there. And the shelves hold what
was stored. As with soundness, this is stated once for each of the ways in which a context changes.
-/

namespace Satisfiability.Context

open Search Trail

variable {ρ : Type} {ctx ctx' : Context ρ} {literal : Literal} {log log' : List (Source × Clause)}

/-- Of the clause with a key another literal than the one given is false on a level. -/
def Anchors (store : ClauseStore) (marks : List (Literal × Nat)) (key : ClauseKey)
    (literal : Literal) (level : Nat) : Prop :=
  ∃ clause, store.Has key clause ∧ ∃ other ∈ clause, other ≠ literal ∧ (-other, level) ∈ marks

/-- The graph says of each atom what forced it and from where, and the shelves hold the clauses of
the log. -/
structure Accounted (log : List (Source × Clause)) (ctx : Context ρ) : Prop where
  linked : ctx.Linked
  present : ∀ atom key, ctx.graph.reason? atom = some key →
    ∃ literals, ctx.clauses.literals? key = some literals
  parents : ∀ atom parent, parent ∈ (ctx.graph.node atom).parents ↔
    parent ∈ ctx.reasonAtoms (ctx.graph.reason? atom) ∧ parent ≠ atom
  anchored : ∀ literal level key, (literal, level) ∈ ctx.trail.marked → 0 < level →
    ctx.graph.reason? literal.atom = some key →
      Anchors ctx.clauses ctx.trail.marked key literal level
  records : ctx.clauses.Records log

theorem mem_reasonAtoms {reason : Option ClauseKey} {atom : Atom} :
    atom ∈ ctx.reasonAtoms reason ↔ ∃ source index clause, reason = some (.stored source index) ∧
      ctx.clauses.Has (.stored source index) clause ∧ atom ∈ clause.atoms := by
  constructor
  · intro hmem
    unfold reasonAtoms at hmem
    split at hmem
    · rename_i source index
      rcases hget : ctx.clauses.get? (.stored source index) with _ | watched
      · simp [hget] at hmem
      · rw [hget] at hmem
        exact ⟨source, index, watched.literals, rfl, ClauseStore.has_of_get? hget, hmem⟩
    · exact absurd hmem List.not_mem_nil
  · rintro ⟨source, index, _, rfl, ⟨watched, hget, rfl⟩, hmem⟩
    simpa only [reasonAtoms, hget, Option.map_some, Option.getD_some] using hmem

theorem mem_reasonAtoms_of_grows (hgrows : ctx.clauses.Grows ctx'.clauses)
    {reason : Option ClauseKey}
    (hpresent : ∀ key, reason = some key → ∃ literals, ctx.clauses.literals? key = some literals)
    {atom : Atom} :
    atom ∈ ctx'.reasonAtoms reason ↔ atom ∈ ctx.reasonAtoms reason := by
  rw [mem_reasonAtoms, mem_reasonAtoms]
  constructor
  · rintro ⟨source, index, clause', rfl, hhas', hmem⟩
    obtain ⟨literals, hliterals⟩ := hpresent _ rfl
    obtain ⟨watched, hget, _⟩ := Option.map_eq_some_iff.1 hliterals
    -- the clause was there before, with the same literals
    obtain ⟨clause'', hhas'', hperm⟩ := hgrows _ _ (ClauseStore.has_of_get? hget)
    refine ⟨source, index, _, rfl, ClauseStore.has_of_get? hget, ?_⟩
    exact (hperm.map Literal.atom).mem_iff.1 (hhas'.unique hhas'' ▸ hmem)
  · rintro ⟨source, index, clause, rfl, hhas, hmem⟩
    obtain ⟨clause', hhas', hperm⟩ := hgrows _ _ hhas
    exact ⟨source, index, clause', rfl, hhas', (hperm.map Literal.atom).mem_iff.2 hmem⟩

theorem literals?_of_grows {store store' : ClauseStore} (hgrows : store.Grows store')
    {key : ClauseKey} (h : ∃ literals, store.literals? key = some literals) :
    ∃ literals, store'.literals? key = some literals := by
  cases key with
  | unit source literal => exact ⟨[literal], rfl⟩
  | stored source index =>
    obtain ⟨literals, hliterals⟩ := h
    obtain ⟨watched, hget, _⟩ := Option.map_eq_some_iff.1 hliterals
    obtain ⟨clause, hhas, _⟩ := hgrows _ _ (ClauseStore.has_of_get? hget)
    exact ⟨clause, ClauseStore.literals?_of_has hhas⟩

theorem Anchors.mono {store store' : ClauseStore} {marks marks' : List (Literal × Nat)}
    {key : ClauseKey} {level : Nat} (h : Anchors store marks key literal level)
    (hgrows : store.Grows store')
    (hmarks : ∀ other, (other, level) ∈ marks → (other, level) ∈ marks') :
    Anchors store' marks' key literal level := by
  obtain ⟨clause, hhas, other, hother, hne, hmark⟩ := h
  obtain ⟨clause', hhas', hperm⟩ := hgrows key clause hhas
  exact ⟨clause', hhas', other, hperm.mem_iff.2 hother, hne, hmarks _ hmark⟩

theorem Accounted.mono (h : ctx.Accounted log) (hgrows : ctx.clauses.Grows ctx'.clauses)
    (hnode : ∀ atom, ctx'.graph.node atom = ctx.graph.node atom)
    (hplacement : ∀ atom, ctx'.atoms.placement? atom = ctx.atoms.placement? atom)
    (hmarked : ctx'.trail.marked = ctx.trail.marked)
    (hrecords : ctx'.clauses.Records log') : ctx'.Accounted log' := by
  have hreason : ∀ atom, ctx'.graph.reason? atom = ctx.graph.reason? atom :=
    fun atom => congrArg ImplicationNode.reason (hnode atom)
  refine ⟨h.linked.mono hnode hplacement, fun atom key hkey => ?_, fun atom parent => ?_,
    fun literal level key hmark hlevel hkey => ?_, hrecords⟩
  · rw [hreason] at hkey
    exact literals?_of_grows hgrows (h.present atom key hkey)
  · rw [hnode, hreason, mem_reasonAtoms_of_grows hgrows (h.present atom), h.parents]
  · rw [hmarked] at hmark ⊢
    rw [hreason] at hkey
    exact (h.anchored literal level key hmark hlevel hkey).mono hgrows fun _ => id

theorem Forces.valued {marks : List (Literal × Nat)} {key : ClauseKey} {index : Nat}
    (h : Forces ctx.clauses marks key literal index) :
    ∀ parent ∈ ctx.reasonAtoms (some key), parent ≠ literal.atom →
      ∃ mark ∈ marks, mark.1.atom = parent := by
  intro parent hparent hne
  obtain ⟨source, index, clause, hkey, hhas, hmem⟩ := mem_reasonAtoms.1 hparent
  cases hkey
  obtain ⟨clause', hhas', _, hothers⟩ := h
  obtain ⟨other, hother, rfl⟩ := List.mem_map.1 (show parent ∈ clause.map Literal.atom from hmem)
  rw [hhas'.unique hhas] at hothers
  obtain ⟨i, _, level, hmark⟩ := hothers other hother fun heq => hne (congrArg Literal.atom heq)
  exact ⟨_, List.mem_of_getElem? hmark, rfl⟩

/-- A new literal has to have its anchor, and the atoms of its reason have to have values. -/
theorem Recorded.accounted {reason : Option ClauseKey} (hrecorded : ctx.Recorded literal reason ctx')
    (h : ctx.Accounted log) (hagrees : ctx.Agrees)
    (hnone : ctx.atoms.placement? literal.atom = none)
    (hvalued : ∀ parent ∈ ctx.reasonAtoms reason, parent ≠ literal.atom →
      ∃ mark ∈ ctx.trail.marked, mark.1.atom = parent)
    (hanchors : ∀ key, reason = some key → 0 < ctx.trail.level →
      Anchors ctx.clauses ctx.trail.marked key literal ctx.trail.level) :
    ctx'.Accounted log := by
  have hgrows : ctx.clauses.Grows ctx'.clauses := hrecorded.extends.grows
  have hmarks : ∀ mark, mark ∈ ctx.trail.marked → mark ∈ ctx'.trail.marked := by
    intro mark hmark
    rw [hrecorded.marked]
    exact List.mem_append_left _ hmark
  refine ⟨hrecorded.linked h.linked hagrees hnone hvalued, fun atom key hkey => ?_,
    fun atom parent => ?_, fun other level key hmark hlevel hkey => ?_, ?_⟩
  · rw [hrecorded.reason] at hkey
    refine literals?_of_grows hgrows ?_
    split at hkey
    · obtain ⟨literals, hliterals, _⟩ := hrecorded.known key hkey
      exact ⟨literals, hliterals⟩
    · exact h.present atom key hkey
  · have hatoms : ∀ reason, ctx'.reasonAtoms reason = ctx.reasonAtoms reason := by
      intro reason
      unfold reasonAtoms
      rw [hrecorded.same.clauses]
    rw [hrecorded.parents, hrecorded.reason, hatoms]
    split
    · exact Iff.rfl
    · exact h.parents atom parent
  · rw [hrecorded.reason] at hkey
    rw [hrecorded.marked, List.mem_append] at hmark
    -- an older literal keeps its reason, and the new one has the anchor it was given
    rcases hmark with hold | hnew
    · have hne : other.atom ≠ literal.atom := hagrees.placement_eq_none.1 hnone _ hold
      rw [if_neg hne] at hkey
      exact (h.anchored other level key hold hlevel hkey).mono hgrows fun _ => hmarks _
    · cases List.mem_singleton.1 hnew
      rw [if_pos rfl] at hkey
      exact (hanchors key hkey hlevel).mono hgrows fun _ => hmarks _
  · rw [hrecorded.same.clauses]
    exact h.records

theorem Returned.accounted {target : Nat} (hreturned : ctx.Returned target ctx')
    (h : ctx.Accounted log) : ctx'.Accounted log := by
  refine ⟨hreturned.linked h.linked, fun atom key hkey => ?_, fun atom parent => ?_,
    fun literal level key hmark hlevel hkey => ?_, ?_⟩
  · rw [hreturned.same.clauses]
    exact h.present atom key (hreturned.reason_of hkey)
  · have hatoms : ∀ reason, ctx'.reasonAtoms reason = ctx.reasonAtoms reason := by
      intro reason
      unfold reasonAtoms
      rw [hreturned.same.clauses]
    rcases hreturned.forgotten atom with ⟨hreason, hparents⟩ | ⟨hreason, hparents⟩
    · rw [hreason, hparents, hatoms]
      exact h.parents atom parent
    · rw [hreason, hparents]
      simp [reasonAtoms]
  · -- the anchor is on the level of its literal, so it is kept as well
    rw [hreturned.marked] at hmark ⊢
    obtain ⟨hmem, hle⟩ := mem_upTo.1 hmark
    refine (h.anchored literal level key hmem hlevel (hreturned.reason_of hkey)).mono
      hreturned.extends.grows fun other hother => mem_upTo.2 ⟨hother, hle⟩
  · rw [hreturned.same.clauses]
    exact h.records

theorem Similar.accounted (hsimilar : ctx.Similar ctx') (h : ctx.Accounted log) :
    ctx'.Accounted log := by
  refine h.mono hsimilar.extends.grows (fun atom => by rw [hsimilar.graph])
    hsimilar.placements.placement (by rw [hsimilar.trail]) ?_
  · rw [hsimilar.clauses]
    exact h.records

theorem Accounted.withUnit (h : ctx.Accounted log) (source : Source) :
    (ctx.withUnit literal source).Accounted (log ++ logged source [literal]) := by
  rw [show logged source [literal] = [] from rfl, List.append_nil]
  exact h.mono grows_withUnit (fun _ => rfl) (fun _ => rfl) rfl (h.records.noteUnit literal source)

theorem Stored.accounted {clause : Clause} {source : Source} {key : ClauseKey}
    (hstored : ctx.Stored clause source key ctx') (h : ctx.Accounted log) :
    ctx'.Accounted (log ++ logged source clause) := by
  obtain ⟨watched, hliterals, hclauses⟩ := hstored.shelved
  have hperm : watched.literals.Perm clause := hliterals ▸ perm_watchOrder ctx clause
  have hlength : 2 ≤ clause.length := by
    rw [← hperm.length_eq]
    simp [WatchedClause.literals]
  rw [logged, if_pos hlength]
  refine h.mono hstored.grows (fun atom => by rw [hstored.graph]) hstored.atoms.placement
    (by rw [hstored.trail]) ?_
  · rw [hclauses]
    exact h.records.push source hperm

end Satisfiability.Context
