import Satisfiability.Proofs.Equality.Consistency
import Satisfiability.Proofs.Equality.Denotation

/-!
# What follows from assertions

After whatever calls, the classes are the congruence closure of the equations of the literals
asserted and not taken back, and so they will be on each level below (`FollowsDown`). In a structure
that satisfies these literals, atoms whose sides are in one class are true (`Runs.models_of_same`);
the classes themselves are such a structure unless there is a conflict (`Runs.satisfies`). So what
is propagated is what holds in all structures that satisfy the assertions (`propagation_exact`).
-/

namespace Satisfiability.FirstOrder.Structure

/-- The literals have the truth values of their formulas. -/
def Satisfies {D : Type} (M : Structure D) (atoms : List (Atom × Formula)) (literals : List Literal) :
    Prop :=
  ∀ literal ∈ literals, ∀ formula, (literal.atom, formula) ∈ atoms →
    (M.Models formula ↔ literal.positive = true)

end Satisfiability.FirstOrder.Structure

namespace Satisfiability.Equality.Solver

open Satisfiability.FirstOrder (Formula Structure)
open Search (Trail)
open TermClasses

variable {solver solver' : Solver} {atoms : List (Atom × Formula)} {history : History Literal}
  {literal : Literal}

/-! ## Runs of calls -/

inductive Call where
  | openLevel
  | assert (literal : Literal)
  | backtrack (level : Nat)
  deriving DecidableEq

def isFirst (atoms : List (Atom × Formula)) (literals : List Literal) (literal : Literal) : Bool :=
  (atoms.any fun pair => pair.1 == literal.atom && pair.2.isAtomic) &&
    literals.all fun other => other.atom != literal.atom

namespace Call

def apply (solver : Solver) : Call → Solver
  | openLevel => solver.openLevel
  | assert literal => (solver.assert literal).toOption.getD solver
  | backtrack level => (solver.backtrack level).toOption.getD solver

def record (atoms : List (Atom × Formula)) (history : History Literal) : Call → History Literal
  | openLevel => history.checkpoint
  | assert literal => if isFirst atoms history.live literal then history.add literal else history
  | backtrack level => History.restore^[history.saved.length - level] history

end Call

def after (atoms : List (Atom × Formula)) (calls : List Call) : Solver :=
  calls.foldl Call.apply (ofAtoms atoms)

/-- The literals asserted by some calls and not taken back by them. -/
def asserted (atoms : List (Atom × Formula)) (calls : List Call) : List Literal :=
  (calls.foldl (Call.record atoms) {}).live

def equationsOf (solver : Solver) (literals : List Literal) : List (NodeId × NodeId) :=
  literals.filterMap fun literal =>
    if literal.positive then solver.sides.find? literal.atom else none

/-! ## What is asserted -/

/-- The theory holds what is asserted, and its classes are those of the equations asserted true. -/
structure Follows (solver : Solver) (history : History Literal) : Prop where
  literals : solver.assertions.literals = history.live.reverse
  level : solver.level = history.saved.length
  closes : solver.pristine.Closes solver.classes (solver.equationsOf history.live)

/-- The theory follows what is asserted on its present level and on each one below. -/
def FollowsDown (solver : Solver) (history : History Literal) : (levels : Nat) → Prop
  | 0 => solver.Follows history
  | levels + 1 => solver.Follows history ∧ solver.closeLevel.FollowsDown history.restore levels

theorem FollowsDown.follows {levels : Nat} (h : solver.FollowsDown history levels) :
    solver.Follows history := by
  cases levels with
  | zero => exact h
  | succ levels => exact h.1

theorem mem_equationsOf {literals : List Literal} {pair : NodeId × NodeId} :
    pair ∈ solver.equationsOf literals ↔ ∃ literal ∈ literals, literal.positive = true ∧
      solver.sides.find? literal.atom = some pair := by
  simp only [equationsOf, List.mem_filterMap]
  refine exists_congr fun literal => and_congr_right fun _ => ?_
  by_cases hpositive : literal.positive = true <;> simp [hpositive]

theorem value?_eq_none_iff {atom : Atom} : solver.value? atom = none ↔
    ∀ literal ∈ solver.assertions.literals, literal.atom ≠ atom := by
  rw [value?, Option.map_eq_none_iff, List.find?_eq_none]
  simp

theorem Follows.value?_eq_none (h : solver.Follows history) {atom : Atom} :
    solver.value? atom = none ↔ ∀ literal ∈ history.live, literal.atom ≠ atom := by
  rw [value?_eq_none_iff, h.literals]
  simp only [List.mem_reverse]

theorem isFirst_iff (h : solver.Follows history) (hover : solver.Over atoms) :
    isFirst atoms history.live literal = true ↔
      (∃ sides, solver.sides.find? literal.atom = some sides) ∧ solver.value? literal.atom = none := by
  rw [isFirst, Bool.and_eq_true, List.any_eq_true, List.all_eq_true, h.value?_eq_none]
  simp only [Bool.and_eq_true, beq_iff_eq, bne_iff_ne]
  apply and_congr_left
  intro _
  constructor
  · rintro ⟨⟨atom, formula⟩, hmem, rfl, hatomic⟩
    exact hover.atomic _ _ hmem hatomic
  · rintro ⟨sides, hsides⟩
    obtain ⟨formula, hmem, hhas⟩ := hover.known _ sides hsides
    exact ⟨(literal.atom, formula), hmem, rfl, hhas.isAtomic⟩

theorem assert_unchanged (h : ¬ ((∃ sides, solver.sides.find? literal.atom = some sides) ∧
    solver.value? literal.atom = none)) : (solver.assert literal).toOption.getD solver = solver := by
  unfold Solver.assert
  cases hsides : solver.sides.find? literal.atom with
  | none => rfl
  | some sides =>
    cases hvalue : solver.value? literal.atom with
    | none => exact absurd ⟨⟨sides, hsides⟩, hvalue⟩ h
    | some value =>
      dsimp only
      split <;> rfl

theorem assert_first {sides : NodeId × NodeId} (hsides : solver.sides.find? literal.atom = some sides)
    (hvalue : solver.value? literal.atom = none) : solver.assert literal =
      .ok { solver with
        assertions := solver.assertions.push literal
        classes := if literal.positive then (solver.classes.merge sides.1 sides.2).2
          else solver.classes } := by
  unfold Solver.assert
  rw [hsides, hvalue]
  dsimp only
  split <;> rfl

/-! ## The classes follow the assertions -/

theorem Follows.push {classes : TermClasses} (h : solver.Follows history)
    (hcloses : solver.pristine.Closes classes (solver.equationsOf (literal :: history.live))) :
    Follows { solver with assertions := solver.assertions.push literal, classes }
      (history.add literal) := by
  refine ⟨?_, (Trail.level_push _ _).trans h.level, hcloses⟩
  show (solver.assertions.push literal).literals = (literal :: history.live).reverse
  rw [literals_push, h.literals, List.reverse_cons]

theorem Follows.assert (h : solver.Follows history) (hexact : solver.Exact) (hover : solver.Over atoms)
    (literal : Literal) : ((Call.assert literal).apply solver).Follows
      ((Call.assert literal).record atoms history) := by
  show Follows ((solver.assert literal).toOption.getD solver)
    (if isFirst atoms history.live literal then history.add literal else history)
  by_cases hfirst : isFirst atoms history.live literal = true
  · obtain ⟨⟨sides, hsides⟩, hvalue⟩ := (isFirst_iff h hover).1 hfirst
    rw [if_pos hfirst, assert_first hsides hvalue]
    apply h.push
    obtain ⟨hleft, hright⟩ := hexact.ranged _ _ hsides
    unfold equationsOf
    by_cases hpositive : literal.positive = true
    · rw [if_pos hpositive, List.filterMap_cons_some (by rw [if_pos hpositive, hsides])]
      exact h.closes.merge hleft hright
    · rw [if_neg hpositive, List.filterMap_cons_none (by rw [if_neg hpositive])]
      exact h.closes
  · rw [if_neg hfirst, assert_unchanged fun hnew => hfirst ((isFirst_iff h hover).2 hnew)]
    exact h

theorem Follows.openLevel (h : solver.Follows history) :
    solver.openLevel.Follows history.checkpoint :=
  ⟨(literals_openLevel _).trans h.literals, congrArg Nat.succ h.level, h.closes.congr rfl⟩

/-- What `solver` is after some calls and what was asserted by them. -/
structure Runs (atoms : List (Atom × Formula)) (solver : Solver) (history : History Literal) : Prop where
  coherent : solver.Coherent
  knows : solver.Over atoms
  follows : solver.FollowsDown history solver.level

theorem Runs.assert (h : Runs atoms solver history) (literal : Literal) :
    Runs atoms ((Call.assert literal).apply solver) ((Call.assert literal).record atoms history) := by
  have hfollows := h.follows.follows
  have hthere := hfollows.assert h.coherent.exact h.knows literal
  by_cases hfirst : isFirst atoms history.live literal = true
  · obtain ⟨⟨sides, hsides⟩, hvalue⟩ := (isFirst_iff hfollows h.knows).1 hfirst
    obtain ⟨solver', hassert⟩ : ∃ solver', solver.assert literal = .ok solver' :=
      ⟨_, assert_first hsides hvalue⟩
    have happly : (Call.assert literal).apply solver = solver' := by
      show (solver.assert literal).toOption.getD solver = solver'
      rw [hassert]
      rfl
    have hrecord : (Call.assert literal).record atoms history = history.add literal := if_pos hfirst
    obtain ⟨hasserted, hcoherent⟩ := h.coherent.asserted hassert
    rw [happly, hrecord] at hthere ⊢
    refine ⟨hcoherent, h.knows.sameAtoms hasserted.atoms, ?_⟩
    rw [hasserted.level]
    have hbelow := h.follows
    -- below the present level nothing has changed, neither in the theory nor in the history
    cases hlevel : solver.level with
    | zero => exact hthere
    | succ level =>
      rw [hlevel] at hbelow
      have hsaved : history.saved ≠ [] := by
        rw [← List.length_pos_iff, ← hfollows.level, hlevel]
        exact Nat.succ_pos level
      refine ⟨hthere, ?_⟩
      rw [hasserted.below (hlevel ▸ Nat.succ_pos level), History.restore_add literal hsaved]
      exact hbelow.2
  · have hnew := fun hnew => hfirst ((isFirst_iff hfollows h.knows).2 hnew)
    have happly : (Call.assert literal).apply solver = solver := assert_unchanged hnew
    have hrecord : (Call.assert literal).record atoms history = history := if_neg hfirst
    rw [happly, hrecord]
    exact h

theorem Runs.openLevel (h : Runs atoms solver history) :
    Runs atoms solver.openLevel history.checkpoint :=
  ⟨h.coherent.openLevel, h.knows.sameAtoms (sameAtoms_openLevel solver),
    h.follows.follows.openLevel, h.follows⟩

theorem Runs.closeLevels {count : Nat} (h : Runs atoms solver history) (hcount : count ≤ solver.level) :
    Runs atoms (solver.closeLevels count) (History.restore^[count] history) := by
  obtain ⟨hcoherent, hatoms, hlevel, -⟩ := h.coherent.closeLevels hcount
  refine ⟨hcoherent, h.knows.sameAtoms hatoms, ?_⟩
  rw [hlevel]
  have hfollows := h.follows
  generalize solver.level = level at hcount hfollows
  clear hcoherent hatoms hlevel h
  induction count generalizing solver history level with
  | zero => exact hfollows
  | succ count ih =>
    obtain ⟨below, rfl⟩ : ∃ below, level = below + 1 := Nat.exists_eq_succ_of_ne_zero (by omega)
    rw [Nat.add_sub_add_right]
    exact ih below (by omega) hfollows.2

theorem Runs.call (h : Runs atoms solver history) (call : Call) :
    Runs atoms (call.apply solver) (call.record atoms history) := by
  have hsaved := h.follows.follows.level
  cases call with
  | openLevel => exact h.openLevel
  | assert literal => exact h.assert literal
  | backtrack level =>
    show Runs atoms ((solver.backtrack level).toOption.getD solver)
      (History.restore^[history.saved.length - level] history)
    unfold Solver.backtrack
    rw [← hsaved]
    by_cases hlevel : solver.level < level
    · rw [if_pos hlevel, Nat.sub_eq_zero_of_le (Nat.le_of_lt hlevel)]
      exact h
    · rw [if_neg hlevel]
      exact h.closeLevels (Nat.sub_le _ _)

theorem runs_ofAtoms (atoms : List (Atom × Formula)) : Runs atoms (ofAtoms atoms) {} := by
  obtain ⟨hcoherent, hover, _, _⟩ := ofAtoms_spec atoms
  have hinterned := (interned_ofAtoms atoms).1
  exact ⟨hcoherent, hover, rfl, rfl, hinterned.valid.closes_self hinterned.representative_eq_self⟩

theorem runs_after (atoms : List (Atom × Formula)) (calls : List Call) :
    Runs atoms (after atoms calls) (calls.foldl (Call.record atoms) {}) := by
  have hruns : ∀ {solver history}, Runs atoms solver history →
      Runs atoms (calls.foldl Call.apply solver) (calls.foldl (Call.record atoms) history) := by
    induction calls with
    | nil => exact id
    | cons call rest ih => exact fun h => ih (h.call call)
  exact hruns (runs_ofAtoms atoms)

/-! ## What holds in structures -/

/-- The literal is the positive one of an atom of the theory that is not asserted and is true
wherever all that is asserted is true. -/
structure Entails (atoms : List (Atom × Formula)) (literals : List Literal) (literal : Literal) :
    Prop where
  positive : literal.positive = true
  unasserted : ∀ other ∈ literals, other.atom ≠ literal.atom
  holds : ∃ formula, (literal.atom, formula) ∈ atoms ∧ formula.isAtomic = true ∧
    ∀ (D : Type) (M : Structure D), M.Satisfies atoms literals → M.Models formula

theorem of_propagate_conflict (h : solver.propagate = .conflict literal) :
    literal.atom ∈ solver.equalAtoms ∧ solver.value? literal.atom = some false := by
  unfold Solver.propagate at h
  dsimp only at h
  split at h
  · rename_i atom hfind
    cases h
    have hvalue := List.find?_some hfind
    rw [beq_iff_eq] at hvalue
    exact ⟨List.mem_of_find?_eq_some hfind, hvalue⟩
  · split at h <;> exact absurd h (by simp)

theorem of_propagate_entailed {literals : List Literal} (h : solver.propagate = .entailed literals) :
    literals ≠ [] ∧ ∀ literal, literal ∈ literals ↔ literal.positive = true ∧
      literal.atom ∈ solver.equalAtoms ∧ solver.value? literal.atom = none := by
  unfold Solver.propagate at h
  dsimp only at h
  split at h
  · exact absurd h (by simp)
  · split at h
    · exact absurd h (by simp)
    · rename_i hne
      cases h
      refine ⟨by simpa using hne, fun literal => ?_⟩
      obtain ⟨atom, positive⟩ := literal
      cases positive <;> simp

theorem of_propagate_consistent (h : solver.propagate = .consistent) {atom : Atom}
    (hatom : atom ∈ solver.equalAtoms) : solver.value? atom ≠ none := by
  unfold Solver.propagate at h
  dsimp only at h
  split at h
  · exact absurd h (by simp)
  · split at h
    · rename_i hnone
      intro hvalue
      exact List.filter_eq_nil_iff.1 hnone atom hatom (by rw [hvalue]; rfl)
    · exact absurd h (by simp)

section models

variable {D : Type} {M : Structure D} {atom : Atom} {formula : Formula} {sides : NodeId × NodeId}

/-- Where the assertions are true, so are the atoms whose sides they put in one class. -/
theorem Runs.models_of_same (h : Runs atoms solver history)
    (hnamed : ∀ pair ∈ atoms, pair.2.WellNamed) (hmodels : M.Satisfies atoms history.live)
    (hmem : (atom, formula) ∈ atoms) (hsides : solver.pristine.HasSides formula sides)
    (hsame : solver.classes.same sides.1 sides.2 = true) : M.Models formula := by
  have hrelated := (h.follows.follows.closes.same sides.1 sides.2).1 hsame
  rw [models_iff_agree (hnamed _ hmem) hsides]
  apply hrelated.least (isCongruence_agree solver.pristine M)
  -- the sides of an equation asserted true denote the same
  intro pair hpair
  obtain ⟨literal, hliteral, hpositive, hfind⟩ := mem_equationsOf.1 hpair
  obtain ⟨formula', hmem', hsides'⟩ := h.knows.known _ _ hfind
  rw [← models_iff_agree (hnamed _ hmem') hsides']
  exact (hmodels literal hliteral formula' hmem').2 hpositive

/-- Unless there is a conflict, the assertions are true in the structure of the classes. -/
theorem Runs.satisfies (h : Runs atoms solver history) (hdistinct : (atoms.map Prod.fst).Nodup)
    (hconsistent : ∀ literal, solver.propagate ≠ .conflict literal) :
    solver.classes.interpretation.Satisfies atoms history.live := by
  have hexact := h.coherent.exact
  intro literal hliteral formula hmem
  have hasserted : literal ∈ solver.assertions.literals := by
    rw [h.follows.follows.literals]
    exact List.mem_reverse.2 hliteral
  -- an asserted atom is one of the theory
  obtain ⟨sides, hsides⟩ := hexact.known literal hasserted
  obtain ⟨formula', hmem', hhas⟩ := h.knows.known _ _ hsides
  cases KeyMap.eq_of_mem hdistinct hmem' hmem
  have hatomic := hhas.isAtomic
  rw [Structure.models_iff_truth _ (fun _ => False) hatomic]
  exact hexact.truth_iff h.knows hdistinct hconsistent _ hmem hatomic (hexact.valued literal hasserted)

/-- A theory atom follows from the assertions exactly if they put its sides in one class. -/
theorem Runs.mem_equalAtoms_iff (h : Runs atoms solver history)
    (hnamed : ∀ pair ∈ atoms, pair.2.WellNamed) (hdistinct : (atoms.map Prod.fst).Nodup)
    (hconsistent : ∀ literal, solver.propagate ≠ .conflict literal) :
    atom ∈ solver.equalAtoms ↔ ∃ formula, (atom, formula) ∈ atoms ∧ formula.isAtomic = true ∧
      ∀ (D : Type) (M : Structure D), M.Satisfies atoms history.live → M.Models formula := by
  constructor
  · intro hatom
    obtain ⟨sides, hfind, hsame⟩ := h.knows.sides_of_mem_equalAtoms hatom
    obtain ⟨formula, hmem, hsides⟩ := h.knows.known _ _ hfind
    exact ⟨formula, hmem, hsides.isAtomic,
      fun D M hmodels => h.models_of_same hnamed hmodels hmem hsides hsame⟩
  · rintro ⟨formula, hmem, hatomic, hholds⟩
    obtain ⟨sides, hfind⟩ := h.knows.atomic atom formula hmem hatomic
    obtain ⟨formula', hmem', hsides⟩ := h.knows.known _ _ hfind
    have hexact := h.coherent.exact
    cases KeyMap.eq_of_mem hdistinct hmem' hmem
    have hmodels := hholds _ _ (h.satisfies hdistinct hconsistent)
    rw [Structure.models_iff_truth _ (fun _ => False) hatomic,
      hexact.closed.truth _ (hexact.valid.hasSides_of_term hexact.terms hsides)] at hmodels
    exact h.knows.mem_equalAtoms hfind hmodels

theorem Runs.conflict_iff (h : Runs atoms solver history)
    (hnamed : ∀ pair ∈ atoms, pair.2.WellNamed) (hdistinct : (atoms.map Prod.fst).Nodup) :
    (∃ literal, solver.propagate = .conflict literal) ↔
      ¬ ∃ (D : Type) (M : Structure D), M.Satisfies atoms history.live := by
  constructor
  · rintro ⟨literal, hconflict⟩ ⟨D, M, hmodels⟩
    obtain ⟨hatom, hvalue⟩ := of_propagate_conflict hconflict
    obtain ⟨sides, hfind, hsame⟩ := h.knows.sides_of_mem_equalAtoms hatom
    obtain ⟨formula, hmem, hsides⟩ := h.knows.known _ _ hfind
    have htrue := h.models_of_same hnamed hmodels hmem hsides hsame
    have hasserted : (⟨literal.atom, false⟩ : Literal) ∈ history.live := by
      rw [← List.mem_reverse, ← h.follows.follows.literals]
      exact mem_of_value? hvalue
    exact absurd ((hmodels _ hasserted formula hmem).1 htrue) (by simp)
  · intro hnone
    by_contra hconsistent
    apply hnone
    exact ⟨_, _, h.satisfies hdistinct fun literal hconflict => hconsistent ⟨literal, hconflict⟩⟩

end models

/-- After whatever calls, propagation reports a conflict exactly if no structure satisfies what is
asserted. Otherwise it gives exactly those literals of unasserted equalities and relations that are
true in all structures that do, and reports that nothing follows if there are none. -/
theorem propagation_exact (atoms : List (Atom × Formula))
    (hparsed : ∀ pair ∈ atoms, ∃ text, Formula.parse text = .ok pair.2)
    (hdistinct : (atoms.map Prod.fst).Nodup) (calls : List Call) :
    ((∃ literal, (after atoms calls).propagate = .conflict literal) ↔
      ¬ ∃ (D : Type) (M : Structure D), M.Satisfies atoms (asserted atoms calls)) ∧
    (∀ literals, (after atoms calls).propagate = .entailed literals →
      literals ≠ [] ∧ ∀ literal, literal ∈ literals ↔ Entails atoms (asserted atoms calls) literal) ∧
    ((after atoms calls).propagate = .consistent →
      ∀ literal, ¬ Entails atoms (asserted atoms calls) literal) := by
  have hruns := runs_after atoms calls
  have hnamed : ∀ pair ∈ atoms, pair.2.WellNamed := by
    intro pair hmem
    obtain ⟨text, hparse⟩ := hparsed pair hmem
    exact (Formula.parse_spec hparse).1
  -- without a conflict the atoms found equal are those that follow from what is asserted
  have hentails : (∀ literal, (after atoms calls).propagate ≠ .conflict literal) → ∀ literal,
      Entails atoms (asserted atoms calls) literal ↔ literal.positive = true ∧
        literal.atom ∈ (after atoms calls).equalAtoms ∧
          (after atoms calls).value? literal.atom = none := by
    intro hconsistent literal
    rw [hruns.mem_equalAtoms_iff hnamed hdistinct hconsistent, hruns.follows.follows.value?_eq_none]
    exact ⟨fun h => ⟨h.positive, h.holds, h.unasserted⟩, fun h => ⟨h.1, h.2.2, h.2.1⟩⟩
  refine ⟨hruns.conflict_iff hnamed hdistinct, fun literals hentailed => ?_, fun hconsistent => ?_⟩
  · obtain ⟨hne, hliterals⟩ := of_propagate_entailed hentailed
    refine ⟨hne, fun literal => ?_⟩
    rw [hentails (fun other => by rw [hentailed]; simp), hliterals]
  · intro literal hliteral
    rw [hentails (fun other => by rw [hconsistent]; simp)] at hliteral
    exact of_propagate_consistent hconsistent hliteral.2.1 hliteral.2.2

def unaryAtoms : List (Atom × Formula) :=
  [(0, .equality (.app "f" [.var "x"]) (.app "f" [.var "y"])), (1, .equality (.var "x") (.var "y")),
    (2, .relation "R" [.var "x"])]

/-- Once its opposite is taken back, `x = y` is asserted; `f(x) = f(y)` follows, but `R(x)` does
not. -/
theorem propagation_exact_unary :
    (∀ pair ∈ unaryAtoms, ∃ text, Formula.parse text = .ok pair.2) ∧
      Entails unaryAtoms [⟨1, true⟩] ⟨0, true⟩ ∧ ¬ Entails unaryAtoms [⟨1, true⟩] ⟨2, true⟩ := by
  have hparsed : ∀ pair ∈ unaryAtoms, ∃ text, Formula.parse text = .ok pair.2 := by
    simp only [unaryAtoms, List.forall_mem_cons]
    refine ⟨⟨"f(x)=f(y)", ?_⟩, ⟨"x=y", ?_⟩, ⟨"R(x)", ?_⟩, List.forall_mem_nil _⟩ <;> decide +kernel
  obtain ⟨-, hentailed, -⟩ := propagation_exact unaryAtoms hparsed (by decide)
    [.openLevel, .assert ⟨1, false⟩, .backtrack 0, .assert ⟨1, true⟩]
  obtain ⟨-, hliterals⟩ := hentailed [⟨0, true⟩] (by decide +kernel)
  exact ⟨hparsed, (hliterals ⟨0, true⟩).1 (by decide), fun h => absurd ((hliterals _).2 h) (by decide)⟩

/-- A disjunction is no atom of the theory, so it is not propagated though every structure makes it
true. -/
theorem true_disjunction_not_propagated :
    ∃ formula, Formula.parse "(x=x|x=y)" = .ok formula ∧
      (after [(0, formula)] []).propagate = .consistent ∧
        ∀ (D : Type) (M : Structure D), M.Models formula := by
  refine ⟨.or (.equality (.var "x") (.var "x")) (.equality (.var "x") (.var "y")), ?_, ?_, ?_⟩
  · decide +kernel
  · decide +kernel
  · exact fun D M => Or.inl rfl

end Satisfiability.Equality.Solver
