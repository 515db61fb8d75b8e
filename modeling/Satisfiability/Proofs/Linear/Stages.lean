import Mathlib.Logic.Relation
import Satisfiability.Proofs.Linear.Shape

/-!
# The stages of the method

The method goes through stages. If the slack columns are not feasible, the auxiliary column enters,
and pivots make it as small as possible; then pivots make the objective as great as possible.
`Transition` says how one state follows another, without any bound on the number of pivots. A number
of pivots one after the other is `Improved`; the pivots of `optimiseWithin` are such a number, and
end with an answer or use the budget up (`optimiseWithin_ensures`).

`advance` makes one step, with the faults it may end in, and `walk` a number of them. The steps are
transitions (`advance_transition`), and a run of the method is a number of steps, whatever it ends
in (`run_walks`).
-/

namespace Satisfiability.Linear.Simplex

open Scalar Step

inductive Stage (α : Type) where
  | start
  | first
  | second
  | finished (outcome : Outcome α)

variable {α : Type} [Scalar α]

def pursuing (s : Simplex α) (costs : List α) : Simplex α := { s with costs }

def auxiliaryCosts (s : Simplex α) : List α := unit s.columns.length s.auxiliary (-one)

/-- Whether a value shows that the slack columns are not feasible. -/
def infeasibleStart (s : Simplex α) : Bool :=
  s.values.any fun value => less value (-s.options.feasibilityTolerance)

def Improves (withAuxiliary : Bool) (s s' : Simplex α) : Prop :=
  (improve withAuxiliary).run.run s = (.ok none, s')

/-- A step that is a pivot towards a greater value, in either phase. -/
inductive Improvement : Stage α × Simplex α → Stage α × Simplex α → Prop
  | first {s s' : Simplex α} (himproves : Improves true s s') : Improvement (.first, s) (.first, s')
  | second {s s' : Simplex α} (himproves : Improves false s s') : Improvement (.second, s) (.second, s')

theorem improvement_iff {p q : Stage α × Simplex α} : Improvement p q ↔
    p.1 = .first ∧ q.1 = .first ∧ Improves true p.2 q.2 ∨
      p.1 = .second ∧ q.1 = .second ∧ Improves false p.2 q.2 := by
  constructor
  · rintro (himproves | himproves)
    · exact Or.inl ⟨rfl, rfl, himproves⟩
    · exact Or.inr ⟨rfl, rfl, himproves⟩
  · obtain ⟨stage, s⟩ := p
    obtain ⟨stage', s'⟩ := q
    rintro (⟨hp, hq, himproves⟩ | ⟨hp, hq, himproves⟩)
    · obtain rfl : stage = .first := hp
      obtain rfl : stage' = .first := hq
      exact .first himproves
    · obtain rfl : stage = .second := hp
      obtain rfl : stage' = .second := hq
      exact .second himproves

/-- One step of the method from a stage to the same or another one. -/
inductive Transition : Stage α × Simplex α → Stage α × Simplex α → Prop
  | feasible {s : Simplex α} (hvalues : s.infeasibleStart = false) :
    Transition (.start, s) (.second, s.pursuing s.objective)
  | admitted {s s' : Simplex α} {position : ℕ} {direction : List α} (hvalues : s.infeasibleStart = true)
    (hposition : s.nonBasic.idxOf? s.auxiliary = some position)
    (hdirection : s.basis.forward? (s.column s.auxiliary) = some direction)
    (hrun : (pivot position (leastRow s.values) direction).run.run s = (.ok (), s')) :
    Transition (.start, s) (.first, s'.pursuing s'.auxiliaryCosts)
  | improved {p q : Stage α × Simplex α} (himprovement : Improvement p q) : Transition p q
  | infeasible {s s' : Simplex α} {row : ℕ} {value : α}
    (hrun : (improve true).run.run s = (.ok (some true), s'))
    (hrow : s'.basic.idxOf? s'.auxiliary = some row) (hvalue : s'.values[row]? = some value)
    (hpositive : less s'.options.feasibilityTolerance value = true) :
    Transition (.first, s) (.finished .infeasible, s')
  | left {s s' : Simplex α} (hrun : (improve true).run.run s = (.ok (some true), s'))
    (hrow : s'.basic.idxOf? s'.auxiliary = none) :
    Transition (.first, s) (.second, s'.pursuing s'.objective)
  | expelled {s s' s'' : Simplex α} {row : ℕ} {value : α}
    (hrun : (improve true).run.run s = (.ok (some true), s'))
    (hrow : s'.basic.idxOf? s'.auxiliary = some row) (hvalue : s'.values[row]? = some value)
    (hzero : less s'.options.feasibilityTolerance value = false)
    (hexpel : (expelAuxiliary row).run.run s' = (.ok (), s'')) :
    Transition (.first, s) (.second, s''.pursuing s''.objective)
  | optimal {s s' : Simplex α} (hrun : (improve false).run.run s = (.ok (some true), s')) :
    Transition (.second, s) (.finished (.optimal s'.assignment (dot s'.assignment s'.objective)), s')
  | unbounded {s s' : Simplex α} (hrun : (improve false).run.run s = (.ok (some false), s')) :
    Transition (.second, s) (.finished .unbounded, s')

abbrev Reaches : Stage α × Simplex α → Stage α × Simplex α → Prop :=
  Relation.ReflTransGen Transition

abbrev Improved (withAuxiliary : Bool) : Simplex α → Simplex α → Prop :=
  Relation.ReflTransGen (Improves withAuxiliary)

variable {s s' : Simplex α}

theorem reaches_of_improved {withAuxiliary : Bool} {stage : Stage α}
    (hstage : ∀ {s s' : Simplex α}, Improves withAuxiliary s s' → Improvement (stage, s) (stage, s'))
    (h : Improved withAuxiliary s s') : Reaches (stage, s) (stage, s') :=
  h.lift (Prod.mk stage) fun _ _ himproves => .improved (hstage himproves)

/-- A state from which pivots do not fail leads to one where there is an answer, or each unit of the
budget is a pivot. -/
theorem optimiseWithin_ensures (withAuxiliary : Bool) (good : Simplex α → Prop)
    (hgood : ∀ s, good s → Ensures (improve withAuxiliary) s (fun answer s' =>
      (answer = none → good s' ∧ s'.iterations = s.iterations + 1) ∧ (answer ≠ none → s' = s)) never)
    (budget : ℕ) (hs : good s) :
    Ensures (optimiseWithin withAuxiliary budget) s (fun bounded s' => Improved withAuxiliary s s' ∧
        good s' ∧ (improve withAuxiliary).run.run s' = (.ok (some bounded), s'))
      fun _ => ∃ s', Improved withAuxiliary s s' ∧ s'.iterations = s.iterations + budget := by
  induction budget generalizing s with
  | zero => exact ⟨s, .refl, rfl⟩
  | succ budget ih =>
    unfold optimiseWithin
    rw [ensures_bind]
    refine ensures_of_never (ensures_and_run (hgood s hs)) ?_
    rintro answer s₁ ⟨⟨hnone, hsome⟩, hrun⟩
    cases answer with
    | none =>
      obtain ⟨hs₁, hcount⟩ := hnone rfl
      refine ensures_mono (ih hs₁) ?_ ?_
      · rintro bounded s₂ ⟨himproved, hs₂, hanswer⟩
        exact ⟨.head hrun himproved, hs₂, hanswer⟩
      · rintro _ ⟨s₂, himproved, hcount'⟩
        exact ⟨s₂, .head hrun himproved, by rw [hcount', hcount, Nat.add_right_comm, Nat.add_assoc]⟩
    | some bounded =>
      obtain rfl : s₁ = s := hsome (by simp)
      exact ⟨.refl, hs, hrun⟩

/-! ## Steps -/

def admitAuxiliary : Step (Simplex α) Unit := do
  let s ← get
  match s.nonBasic.idxOf? s.auxiliary with
  | none => throw (.simplex .dimension)
  | some position =>
    let direction ← entry (s.basis.forward? (← entry s.columns[s.auxiliary]?))
    pivot position (leastRow s.values) direction
    modify fun s => s.pursuing s.auxiliaryCosts

/-- Tells whether the auxiliary column is zero, once it is as small as possible, and exchanges it
for another one in that case. -/
def settleAuxiliary : Step (Simplex α) Bool := do
  let s ← get
  match s.basic.idxOf? s.auxiliary with
  | none => return true
  | some row =>
    if less s.options.feasibilityTolerance (← entry s.values[row]?) then return false
    expelAuxiliary row
    return true

theorem findFeasible_eq : findFeasible = (do
    admitAuxiliary
    if !(← optimise true) then throw (.simplex .auxiliaryUnbounded)
    settleAuxiliary : Step (Simplex α) Bool) := by
  simp only [findFeasible, admitAuxiliary, settleAuxiliary, bind_assoc]
  congr 1
  funext s
  cases s.nonBasic.idxOf? s.auxiliary with
  | none => rfl
  | some position =>
    simp only [bind_assoc]
    rfl

/-- What follows on an attempt to make a pivot in the first phase. -/
def continueFirst : Option Bool → Step (Simplex α) (Stage α)
  | none => return .first
  | some false => throw (.simplex .auxiliaryUnbounded)
  | some true => do
    if ← settleAuxiliary then
      modify fun s => s.pursuing s.objective
      return .second
    else return .finished .infeasible

/-- What follows on an attempt to make a pivot in the second phase. -/
def continueSecond : Option Bool → Step (Simplex α) (Stage α)
  | none => return .second
  | some false => return .finished .unbounded
  | some true => do
    let s ← get
    return .finished (.optimal s.assignment (dot s.assignment s.objective))

/-- One step of the method: the entrance of the auxiliary column, or one pivot, or the end of a
phase. -/
def advance : Stage α → Step (Simplex α) (Stage α)
  | .start => do
    if (← get).infeasibleStart then
      admitAuxiliary
      return .first
    else
      modify fun s => s.pursuing s.objective
      return .second
  | .first => do continueFirst (← improve true)
  | .second => do continueSecond (← improve false)
  | .finished outcome => return .finished outcome

theorem admitAuxiliary_ends (s : Simplex α) :
    Ends admitAuxiliary s (fun _ s' => ∃ position direction s₁,
        s.nonBasic.idxOf? s.auxiliary = some position ∧
        s.basis.forward? (s.column s.auxiliary) = some direction ∧
        (pivot position (leastRow s.values) direction).run.run s = (.ok (), s₁) ∧
        s' = s₁.pursuing s₁.auxiliaryCosts)
      fun _ _ => True := by
  simp only [admitAuxiliary, ends_bind, ends_get]
  cases hposition : s.nonBasic.idxOf? s.auxiliary with
  | none => trivial
  | some position =>
    cases hcolumn : s.columns[s.auxiliary]? with
    | none => trivial
    | some entries =>
      have hentries : s.column s.auxiliary = entries := by
        rw [column, List.getD_eq_getElem?_getD, hcolumn, Option.getD_some]
      simp only [entry_some, ends_bind, ends_pure]
      cases hdirection : s.basis.forward? entries with
      | none => trivial
      | some direction =>
        simp only [entry_some, ends_pure, ends_modify]
        refine ends_mono (ends_run _ s) ?_ fun _ _ _ => trivial
        exact fun _ s₁ hpivot => ⟨position, direction, s₁, rfl, hentries ▸ hdirection, hpivot, rfl⟩

/-- A step is a transition, or there is an answer already. -/
theorem advance_transition (stage : Stage α) (s : Simplex α) :
    Ends (advance stage) s (fun stage' s' => Relation.ReflGen Transition (stage, s) (stage', s'))
      fun _ _ => True := by
  cases stage with
  | start =>
    simp only [advance, ends_bind, ends_get]
    split
    · rename_i hinfeasible
      rw [ends_bind]
      refine ends_mono (admitAuxiliary_ends s) ?_ fun _ _ _ => trivial
      rintro - s' ⟨position, direction, s₁, hposition, hdirection, hpivot, rfl⟩
      exact .single (.admitted hinfeasible hposition hdirection hpivot)
    · rename_i hfeasible
      exact .single (.feasible (Bool.eq_false_iff.2 hfeasible))
  | first =>
    rw [advance, ends_bind]
    refine ends_mono (ends_run _ s) ?_ fun _ _ _ => trivial
    intro answer s₁ himprove
    rcases answer with _ | _ | _
    · exact .single (.improved (.first himprove))
    · trivial
    · simp only [continueFirst, settleAuxiliary, ends_bind, ends_get]
      -- at the optimum the auxiliary column has left, is positive, or is expelled
      cases hrow : s₁.basic.idxOf? s₁.auxiliary with
      | none => exact .single (.left himprove hrow)
      | some row =>
        simp only [ends_bind]
        cases hvalue : s₁.values[row]? with
        | none => trivial
        | some value =>
          rw [entry_some, ends_pure]
          split
          · rename_i hpositive
            exact .single (.infeasible himprove hrow hvalue hpositive)
          · rename_i hzero
            rw [ends_bind]
            refine ends_mono (ends_run _ s₁) ?_ fun _ _ _ => trivial
            intro _ s₂ hexpel
            exact .single (.expelled himprove hrow hvalue (Bool.eq_false_iff.2 hzero) hexpel)
  | second =>
    rw [advance, ends_bind]
    refine ends_mono (ends_run _ s) ?_ fun _ _ _ => trivial
    intro answer s₁ himprove
    rcases answer with _ | _ | _
    · exact .single (.improved (.second himprove))
    · exact .single (.unbounded himprove)
    · exact .single (.optimal himprove)
  | finished outcome => exact .refl

def walk : ℕ → Stage α → Step (Simplex α) (Stage α)
  | 0, stage => return stage
  | n + 1, stage => do walk n (← advance stage)

/-! ## Runs -/

def Walks (stage : Stage α) (s : Simplex α) (result : Except Fault (Stage α)) (s' : Simplex α) : Prop :=
  ∃ n, (walk n stage).run.run s = (result, s')

/-- A fault ends some number of steps, or it says that the budget is used up after some number of
steps. -/
def Stops (s : Simplex α) (fault : Fault) (s' : Simplex α) : Prop :=
  Walks .start s (.error fault) s' ∨ fault = .outOfFuel ∧ ∃ stage, Walks .start s (.ok stage) s'

theorem walk_add (m n : ℕ) (stage : Stage α) : walk (m + n) stage = (do walk n (← walk m stage)) := by
  induction m generalizing stage with
  | zero => rw [Nat.zero_add, walk, pure_bind]
  | succ m ih => simp only [Nat.succ_add, walk, bind_assoc, ih]

section walks

variable {t : Simplex α} {stage stage' : Stage α} {result : Except Fault (Stage α)}

theorem Walks.trans (h : Walks stage s (.ok stage') s') (h' : Walks stage' s' result t) :
    Walks stage s result t := by
  obtain ⟨m, hm⟩ := h
  obtain ⟨n, hn⟩ := h'
  refine ⟨m + n, ?_⟩
  rw [walk_add, run_bind_ok hm, hn]

theorem Walks.advance (h : Walks stage s (.ok stage') s')
    (hrun : (advance stage').run.run s' = (result, t)) : Walks stage s result t := by
  refine h.trans ⟨1, ?_⟩
  rw [walk, run_bind, hrun]
  cases result <;> rfl

theorem Walks.reaches (h : Walks stage s (.ok stage') s') : Reaches (stage, s) (stage', s') := by
  obtain ⟨n, hn⟩ := h
  induction n generalizing stage s with
  | zero =>
    cases hn
    exact .refl
  | succ n ih =>
    rw [walk, run_bind] at hn
    rcases hrun : (Simplex.advance stage).run.run s with ⟨fault | stage₁, s₁⟩
    · rw [hrun] at hn
      cases hn
    · rw [hrun] at hn
      exact (ends_ok (advance_transition stage s) hrun).to_reflTransGen.trans (ih hn)

variable {next : Option Bool → Step (Simplex α) (Stage α)} {withAuxiliary : Bool}
  (hadvance : advance stage = improve withAuxiliary >>= next) (hnext : next none = pure stage)

include hadvance hnext

theorem optimiseWithin_walks (budget : ℕ) (h : Walks .start s (.ok stage) s') :
    Ends (optimiseWithin withAuxiliary budget) s' (fun bounded t => ∃ u, Walks .start s (.ok stage) u ∧
      (improve withAuxiliary).run.run u = (.ok (some bounded), t)) (Stops s) := by
  -- on the pivots that are left in the budget
  induction budget generalizing s' with
  | zero => exact Or.inr ⟨rfl, stage, h⟩
  | succ budget ih =>
    rw [optimiseWithin, ends_bind]
    refine ends_mono (ends_run _ s') ?_ ?_
    · intro answer t hrun
      cases answer with
      | none =>
        refine ih (h.advance ?_)
        rw [hadvance, run_bind_ok hrun, hnext]
        rfl
      | some bounded => exact ⟨s', h, hrun⟩
    · intro fault t hrun
      refine Or.inl (h.advance ?_)
      rw [hadvance, run_bind_error hrun]

theorem optimise_walks (h : Walks .start s (.ok stage) s') :
    Ends (optimise withAuxiliary) s' (fun bounded t => ∃ u, Walks .start s (.ok stage) u ∧
      (improve withAuxiliary).run.run u = (.ok (some bounded), t)) (Stops s) := by
  simp only [optimise, ends_bind, ends_get]
  exact optimiseWithin_walks hadvance hnext _ h

end walks

theorem run_advance_start (s : Simplex α) : (advance .start).run.run s =
    (if s.infeasibleStart then do
        admitAuxiliary
        return .first
      else do
        modify fun s => s.pursuing s.objective
        return .second : Step (Simplex α) (Stage α)).run.run s := rfl

theorem findFeasible_walks (hinfeasible : s.infeasibleStart = true) :
    Ends findFeasible s (fun feasible t =>
      if feasible then Walks .start s (.ok .second) (t.pursuing t.objective)
      else Walks .start s (.ok (.finished .infeasible)) t) (Stops s) := by
  have hstart : Walks .start s (.ok .start) s := ⟨0, rfl⟩
  rw [findFeasible_eq, ends_bind]
  refine ends_mono (ends_run _ s) ?_ ?_
  · rintro ⟨⟩ s₁ hadmit
    have hfirst : Walks .start s (.ok .first) s₁ := hstart.advance <| by
      rw [run_advance_start, if_pos hinfeasible, run_bind_ok hadmit]
      rfl
    rw [ends_bind]
    refine ends_mono (optimise_walks rfl rfl hfirst) ?_ fun _ _ => id
    rintro bounded s₂ ⟨u, hu, himprove⟩
    -- the last improvement, which changes nothing, is made in the same step as what follows on it
    have hrun : (advance .first).run.run u = (continueFirst (some bounded)).run.run s₂ :=
      run_bind_ok himprove
    cases bounded with
    | false => exact Or.inl (hu.advance hrun)
    | true =>
      refine ends_mono (ends_run settleAuxiliary s₂) ?_ ?_
      · intro feasible s₃ hsettle
        cases feasible with
        | true => exact hu.advance (hrun.trans (run_bind_ok hsettle))
        | false => exact hu.advance (hrun.trans (run_bind_ok hsettle))
      · intro fault s₃ hsettle
        exact Or.inl (hu.advance (hrun.trans (run_bind_error hsettle)))
  · intro fault s₁ hadmit
    exact Or.inl (hstart.advance (by rw [run_advance_start, if_pos hinfeasible, run_bind_error hadmit]))

theorem run_walks (s : Simplex α) :
    Ends run s (fun outcome t => Walks .start s (.ok (.finished outcome)) t) (Stops s) := by
  have hstart : Walks .start s (.ok .start) s := ⟨0, rfl⟩
  -- the second phase, wherever the first one has led
  have hsecond : ∀ t, Walks .start s (.ok .second) (t.pursuing t.objective) →
      Ends (do
        modify fun s => { s with costs := s.objective }
        if ← optimise false then
          let s ← get
          return .optimal s.assignment (dot s.assignment s.objective)
        else return .unbounded : Step (Simplex α) (Outcome α)) t
        (fun outcome t => Walks .start s (.ok (.finished outcome)) t) (Stops s) := by
    intro t ht
    simp only [ends_bind, ends_modify]
    refine ends_mono (optimise_walks rfl rfl ht) ?_ fun _ _ => id
    rintro bounded s₁ ⟨u, hu, himprove⟩
    have hrun : (advance .second).run.run u = (continueSecond (some bounded)).run.run s₁ :=
      run_bind_ok himprove
    cases bounded with
    | true => exact hu.advance hrun
    | false => exact hu.advance hrun
  rw [run, ends_bind, ends_get]
  change Ends (if s.infeasibleStart = true then _ else _) s _ _
  cases hinfeasible : s.infeasibleStart with
  | false =>
    rw [if_neg Bool.false_ne_true, pure_bind]
    exact hsecond s (hstart.advance (by rw [run_advance_start, hinfeasible]; rfl))
  | true =>
    rw [if_pos rfl, ends_bind]
    refine ends_mono (findFeasible_walks hinfeasible) ?_ fun _ _ => id
    intro feasible t ht
    cases feasible with
    | true => exact hsecond t ht
    | false => exact ht

end Satisfiability.Linear.Simplex
