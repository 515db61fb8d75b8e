import Satisfiability.Proofs.Search.ClauseStore
import Satisfiability.Proofs.Search.Trail

/-!
# Watches on a trail

What the watches of a clause promise, stated on the literals of a trail with their levels. A false
watch is harmless if the other watch was true by the level at which it became false (`Guard`). Where
clauses may come late, that is with a single open literal that an earlier level would have forced,
it is also harmless if the other watch is not false while the rest of the clause was false by that
level. A watch whose falsity is still to be seen to is pending and promises nothing. The promise
survives new literals, if their negations become pending, and the return to any level below that of
all pending watches. That is why nothing has to be done about watches on a backjump.
-/

namespace Satisfiability.Search

open Trail

def TrueBy (marks : List (Literal × Nat)) (level : Nat) (literal : Literal) : Prop :=
  ∃ i ≤ level, (literal, i) ∈ marks

/-- What a watch promises about the other watch and the rest of its clause, which may be `late`. -/
def Guard (late : Prop) (marks : List (Literal × Nat)) (pending : Literal → Prop)
    (watch other : Literal) (rest : List Literal) : Prop :=
  ∀ level, (-watch, level) ∈ marks → ¬ pending watch →
    TrueBy marks level other ∨
      (late ∧ (pending other ∨ ∀ i, (-other, i) ∉ marks) ∧
        ∀ literal ∈ rest, TrueBy marks level (-literal))

def WatchedClause.Guarded (clause : WatchedClause) (marks : List (Literal × Nat))
    (pending : Literal → Prop) (late : Prop := True) : Prop :=
  Guard late marks pending clause.first clause.second clause.others ∧
    Guard late marks pending clause.second clause.first clause.others

variable {late : Prop} {marks : List (Literal × Nat)} {pending pending' : Literal → Prop}
  {watch other literal : Literal} {rest : List Literal} {level : Nat}

theorem TrueBy.append (h : TrueBy marks level literal) (more : List (Literal × Nat)) :
    TrueBy (marks ++ more) level literal := by
  obtain ⟨k, hk, hmem⟩ := h
  exact ⟨k, hk, List.mem_append_left _ hmem⟩

theorem TrueBy.upTo {target : Nat} (h : TrueBy marks level literal) (hlevel : level ≤ target) :
    TrueBy (upTo target marks) level literal := by
  obtain ⟨k, hk, hmem⟩ := h
  exact ⟨k, hk, mem_upTo.2 ⟨hmem, Nat.le_trans hk hlevel⟩⟩

theorem Guard.mono (h : Guard late marks pending watch other rest)
    (hwatch : pending watch → pending' watch) (hother : pending other → pending' other) :
    Guard late marks pending' watch other rest := by
  intro level hfalse hnot
  rcases h level hfalse (fun hpending => hnot (hwatch hpending)) with htrue | ⟨hlate, hopen, hrest⟩
  · exact Or.inl htrue
  · exact Or.inr ⟨hlate, hopen.imp_left hother, hrest⟩

theorem Guard.of_timely (h : Guard False marks pending watch other rest) :
    Guard late marks pending watch other rest := fun level hfalse hnot =>
  (h level hfalse hnot).imp_right fun hlate => hlate.1.elim

theorem Guard.push (h : Guard late marks pending watch other rest)
    (hpending : ∀ literal, pending literal → pending' literal) (hnew : pending' (-literal)) :
    Guard late (marks ++ [(literal, level)]) pending' watch other rest := by
  have hlast : ∀ {x : Literal} {i : Nat}, (-x, i) ∈ marks ++ [(literal, level)] →
      (-x, i) ∈ marks ∨ pending' x := by
    intro x i hmem
    rcases List.mem_append.1 hmem with hmem | hmem
    · exact Or.inl hmem
    · have heq : x = -literal := by
        have hfst : -x = literal := congrArg Prod.fst (List.mem_singleton.1 hmem)
        rw [← hfst, Literal.neg_neg]
      exact Or.inr (heq ▸ hnew)
  -- a watch that is false and not pending was so before
  intro i hfalse hnot
  have hmem := (hlast hfalse).resolve_right hnot
  rcases h i hmem (fun hwatch => hnot (hpending _ hwatch)) with htrue | ⟨hlate, hopen, hrest⟩
  · exact Or.inl (htrue.append _)
  · refine Or.inr ⟨hlate, ?_, fun x hx => (hrest x hx).append _⟩
    by_cases hother : pending' other
    · exact Or.inl hother
    · refine Or.inr fun k hk => ?_
      rcases hopen with hopen | hopen
      · exact hother (hpending _ hopen)
      · exact hopen k ((hlast hk).resolve_right hother)

/-- On the return to a level no watch remains pending if all that were became false above it. -/
theorem Guard.upTo {target : Nat} (h : Guard late marks pending watch other rest)
    (hpending : ∀ literal i, pending literal → (-literal, i) ∈ marks → target < i) :
    Guard late (Trail.upTo target marks) (fun _ => False) watch other rest := by
  intro level hfalse _
  obtain ⟨hmem, hlevel⟩ := mem_upTo.1 hfalse
  simp only at hlevel
  have hnot : ¬ pending watch := by
    intro hwatch
    have := hpending _ _ hwatch hmem
    omega
  rcases h level hmem hnot with htrue | ⟨hlate, hopen, hrest⟩
  · exact Or.inl (htrue.upTo hlevel)
  · refine Or.inr ⟨hlate, Or.inr fun i hi => ?_, fun x hx => (hrest x hx).upTo hlevel⟩
    obtain ⟨hmem', hi'⟩ := mem_upTo.1 hi
    rcases hopen with hopen | hopen
    · have := hpending _ _ hopen hmem'
      simp only at hi'
      omega
    · exact hopen i hmem'

theorem Guard.of_open (h : ∀ i, (-watch, i) ∉ marks) : Guard late marks pending watch other rest :=
  fun _ hfalse _ => absurd hfalse (h _)

theorem Guard.of_pending (h : ∀ i, (-watch, i) ∈ marks → pending watch) :
    Guard late marks pending watch other rest :=
  fun level hfalse hnot => absurd (h level hfalse) hnot

namespace WatchedClause

variable {clause clause' : WatchedClause}

theorem Guarded.mono_watches (h : clause.Guarded marks pending late)
    (hfirst : pending clause.first → pending' clause.first)
    (hsecond : pending clause.second → pending' clause.second) :
    clause.Guarded marks pending' late :=
  ⟨h.1.mono hfirst hsecond, h.2.mono hsecond hfirst⟩

theorem Guarded.mono (h : clause.Guarded marks pending late)
    (hpending : ∀ literal, pending literal → pending' literal) :
    clause.Guarded marks pending' late :=
  h.mono_watches (hpending _) (hpending _)

theorem Guarded.push (h : clause.Guarded marks pending late)
    (hpending : ∀ literal, pending literal → pending' literal) (hnew : pending' (-literal)) :
    clause.Guarded (marks ++ [(literal, level)]) pending' late :=
  ⟨h.1.push hpending hnew, h.2.push hpending hnew⟩

theorem Guarded.upTo {target : Nat} (h : clause.Guarded marks pending late)
    (hpending : ∀ literal i, pending literal → (-literal, i) ∈ marks → target < i) :
    clause.Guarded (Trail.upTo target marks) (fun _ => False) late :=
  ⟨h.1.upTo hpending, h.2.upTo hpending⟩

theorem SameWatches.guarded (hsame : clause.SameWatches clause')
    (h : clause.Guarded marks pending late) : clause'.Guarded marks pending late := by
  unfold Guarded at *
  rw [hsame.others]
  rcases hsame.watches with ⟨hfirst, hsecond⟩ | ⟨hfirst, hsecond⟩
  · rw [hfirst, hsecond]
    exact h
  · rw [hfirst, hsecond]
    exact h.symm

end WatchedClause

end Satisfiability.Search
