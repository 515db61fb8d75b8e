import Satisfiability.Proofs.Equality.Entailment
import Satisfiability.Proofs.Equality.Explanations

/-!
# Reasons

Equations merged from scratch put the two sides of an atom in one class exactly if the atom is true
in all structures in which they are true (`entails_iff`), whatever their order. So entailment is
kept when equations are added, and dropping superfluous ones in a single pass leaves none that is
superfluous (`minimise_needs`). The classes that are merged and undone with the assertions agree
with those merged from scratch, so whatever is propagated has an explanation, which is true in all
structures and needs each of its reasons (`explanation_minimal`).
-/

namespace Satisfiability.FirstOrder

variable {atoms : List (Atom × Formula)} {atom : Atom} {formula : Formula} {D : Type}

/-- The formula of an atom: the last equality or relation given for it. -/
def formula? (atoms : List (Atom × Formula)) (atom : Atom) : Option Formula :=
  (atoms.reverse.find? fun pair => pair.1 == atom && pair.2.isAtomic).map Prod.snd

/-- The formula of the atom of the literal has the truth value of the literal. -/
def Structure.Holds (M : Structure D) (atoms : List (Atom × Formula)) (literal : Literal) : Prop :=
  ∃ formula, formula? atoms literal.atom = some formula ∧ (M.Models formula ↔ literal.positive = true)

/-- In each structure in which some atoms are true another one is true. -/
def Implies (atoms : List (Atom × Formula)) (premises : List Atom) (atom : Atom) : Prop :=
  ∀ (D : Type) (M : Structure D), (∀ premise ∈ premises, M.Holds atoms ⟨premise, true⟩) →
    M.Holds atoms ⟨atom, true⟩

theorem formula?_concat (pair : Atom × Formula) : formula? (atoms ++ [pair]) atom =
    if pair.1 = atom ∧ pair.2.isAtomic = true then some pair.2 else formula? atoms atom := by
  rw [formula?, List.reverse_append, List.reverse_singleton, List.singleton_append, List.find?_cons]
  by_cases h : pair.1 = atom ∧ pair.2.isAtomic = true
  · simp [h]
  · rw [if_neg h, formula?]
    have hfails : (pair.1 == atom && pair.2.isAtomic) = false := by simpa using h
    rw [hfails]

theorem mem_of_formula? (h : formula? atoms atom = some formula) : (atom, formula) ∈ atoms := by
  obtain ⟨⟨other, found⟩, hfind, rfl⟩ := Option.map_eq_some_iff.1 h
  have hatom : other = atom ∧ found.isAtomic = true := by simpa using List.find?_some hfind
  exact hatom.1 ▸ List.mem_reverse.1 (List.mem_of_find?_eq_some hfind)

end Satisfiability.FirstOrder

namespace Satisfiability.Equality

def Verdict.literals : Verdict → List Literal
  | .consistent => []
  | .entailed literals => literals
  | .conflict literal => [literal]

namespace Solver

open Satisfiability.FirstOrder (Formula Structure formula? formula?_concat Implies mem_of_formula?)
open TermClasses

variable {solver solver' : Solver} {atoms : List (Atom × Formula)} {history : History Literal}
  {atom : Atom} {sides : NodeId × NodeId} {premises : List Atom}

/-! ## The formulas of atoms -/

/-- The two sides of an atom are those of its formula. -/
def Reads (classes : TermClasses) (sides : KeyMap Atom (NodeId × NodeId))
    (atoms : List (Atom × Formula)) : Prop :=
  ∀ atom pair, sides.find? atom = some pair →
    ∃ formula, formula? atoms atom = some formula ∧ classes.HasSides formula pair

theorem Reads.addAtom {classes : TermClasses} {sides : KeyMap Atom (NodeId × NodeId)}
    (h : Reads classes sides atoms) (hvalid : classes.Valid) (added : Atom) (formula : Formula) :
    Reads (addAtom (classes, sides) (added, formula)).1 (addAtom (classes, sides) (added, formula)).2
      (atoms ++ [(added, formula)]) := by
  intro atom pair hpair
  rw [formula?_concat]
  unfold Solver.addAtom at hpair ⊢
  cases hintern : internAtom classes formula with
  | none =>
    rw [hintern] at hpair
    -- only an atomic formula is read
    have hatomic : formula.isAtomic ≠ true := by
      intro hatomic
      obtain ⟨_, _, hsome⟩ := @internAtom_isSome classes _ hatomic
      exact absurd (hintern.symm.trans hsome) (by simp)
    rw [if_neg fun hread => hatomic hread.2]
    exact h atom pair hpair
  | some result =>
    obtain ⟨pair', classes'⟩ := result
    rw [hintern] at hpair
    obtain ⟨hinterned, hsides⟩ := interned_of_internAtom hvalid hintern
    dsimp only at hpair ⊢
    rw [KeyMap.find?_insert] at hpair
    split at hpair
    · rename_i heq
      cases hpair
      exact ⟨formula, if_pos ⟨heq, hsides.isAtomic⟩, hsides⟩
    · rename_i hne
      obtain ⟨formula', hformula, hsides'⟩ := h atom pair hpair
      refine ⟨formula', ?_, hinterned.valid.hasSides_of_term hinterned.term hsides'⟩
      rw [if_neg fun hread => hne hread.1]
      exact hformula

theorem reads_ofAtoms (atoms : List (Atom × Formula)) :
    Reads (ofAtoms atoms).pristine (ofAtoms atoms).sides atoms := by
  induction atoms using List.reverseRecOn with
  | nil =>
    exact fun atom pair h => absurd h (by simp [ofAtoms, KeyMap.empty, KeyMap.find?, KeyMap.get?])
  | append_singleton atoms pair ih =>
    have hstep := Reads.addAtom ih (interned_ofAtoms atoms).1.valid pair.1 pair.2
    simp only [ofAtoms, List.foldl_append, List.foldl_cons, List.foldl_nil]
    exact hstep

theorem Runs.sameAtoms (h : Runs atoms solver history) (call : Call) :
    solver.SameAtoms (call.apply solver) := by
  cases call with
  | openLevel => exact sameAtoms_openLevel solver
  | assert literal =>
    show solver.SameAtoms ((solver.assert literal).toOption.getD solver)
    cases hassert : solver.assert literal with
    | error fault => exact .refl solver
    | ok solver' => exact (h.coherent.asserted hassert).1.atoms
  | backtrack level =>
    show solver.SameAtoms ((solver.backtrack level).toOption.getD solver)
    unfold Solver.backtrack
    split
    · exact .refl solver
    · exact (h.coherent.closeLevels (Nat.sub_le _ _)).2.1

theorem sameAtoms_after (atoms : List (Atom × Formula)) (calls : List Call) :
    (ofAtoms atoms).SameAtoms (after atoms calls) := by
  have hcalls : ∀ {solver history}, Runs atoms solver history →
      solver.SameAtoms (calls.foldl Call.apply solver) := by
    induction calls with
    | nil => exact fun _ => .refl _
    | cons call rest ih => exact fun h => (h.sameAtoms call).trans (ih (h.call call))
  exact hcalls (runs_ofAtoms atoms)

/-! ## Merging from scratch -/

def equationsFor (solver : Solver) (premises : List Atom) : List (NodeId × NodeId) :=
  premises.filterMap solver.sides.find?

/-- The theory is over some atoms, and nothing is merged in the classes before any assertion. -/
structure Scratch (solver : Solver) (atoms : List (Atom × Formula)) : Prop where
  reads : Reads solver.pristine solver.sides atoms
  closes : solver.pristine.Closes solver.pristine []

theorem scratch_after (atoms : List (Atom × Formula)) (calls : List Call) :
    (after atoms calls).Scratch atoms := by
  have hsame := sameAtoms_after atoms calls
  refine ⟨?_, ?_⟩
  · rw [hsame.pristine, hsame.sides]
    exact reads_ofAtoms atoms
  · rw [hsame.pristine]
    exact (runs_ofAtoms atoms).follows.follows.closes

theorem Scratch.closes_foldl (h : solver.Scratch atoms) {classes : TermClasses}
    {equations : List (NodeId × NodeId)} (hcloses : solver.pristine.Closes classes equations)
    (premises : List Atom) : solver.pristine.Closes (premises.foldl solver.mergeAtom classes)
      ((solver.equationsFor premises).reverse ++ equations) := by
  induction premises generalizing classes equations with
  | nil => exact hcloses
  | cons premise rest ih =>
    rw [List.foldl_cons, mergeAtom, equationsFor, List.filterMap_cons]
    cases hsides : solver.sides.find? premise with
    | none => exact ih hcloses
    | some sides =>
      obtain ⟨_, _, hhas⟩ := h.reads premise sides hsides
      obtain ⟨hleft, hright⟩ := hhas.lt_size
      rw [← hcloses.terms.size] at hleft hright
      have hmerged := ih (hcloses.merge hleft hright)
      dsimp only
      rw [List.reverse_cons, List.append_assoc]
      exact hmerged

theorem Scratch.entails_iff_related (h : solver.Scratch atoms) :
    solver.entails premises sides = true ↔
      solver.pristine.Related (solver.equationsFor premises) sides.1 sides.2 := by
  rw [entails, (h.closes_foldl h.closes premises).same, List.append_nil]
  exact ⟨.mono (List.reverse_subset.2 (List.Subset.refl _)),
    .mono (List.subset_reverse.2 (List.Subset.refl _))⟩

theorem Scratch.entails_mono (h : solver.Scratch atoms) {more : List Atom} (hsubset : premises ⊆ more)
    (hentails : solver.entails premises sides = true) : solver.entails more sides = true := by
  rw [h.entails_iff_related] at hentails ⊢
  exact hentails.mono (List.filterMap_subset _ hsubset)

/-! ## What equations mean -/

theorem Scratch.holds_iff_agree (h : solver.Scratch atoms) (hnamed : ∀ pair ∈ atoms, pair.2.WellNamed)
    {D : Type} (M : Structure D) (hsides : solver.sides.find? atom = some sides) :
    M.Holds atoms ⟨atom, true⟩ ↔ solver.pristine.Agree M sides.1 sides.2 := by
  obtain ⟨formula, hformula, hhas⟩ := h.reads atom sides hsides
  rw [← models_iff_agree (hnamed _ (mem_of_formula? hformula)) hhas]
  simp [Structure.Holds, hformula]

/-- In the structure of classes an atom is true exactly if its two sides are in one class. -/
theorem Scratch.holds_iff_same (h : solver.Scratch atoms) {classes : TermClasses}
    {equations : List (NodeId × NodeId)} (hcloses : solver.pristine.Closes classes equations)
    (hsides : solver.sides.find? atom = some sides) :
    classes.interpretation.Holds atoms ⟨atom, true⟩ ↔ classes.same sides.1 sides.2 = true := by
  obtain ⟨formula, hformula, hhas⟩ := h.reads atom sides hsides
  have hterm : ∀ id term, solver.pristine.term? id = some term → classes.term? id = some term :=
    fun id term hid => (hcloses.terms.term id).trans hid
  rw [← hcloses.closed.truth (fun _ => False) (hcloses.valid.hasSides_of_term hterm hhas),
    ← Structure.models_iff_truth _ _ hhas.isAtomic]
  simp [Structure.Holds, hformula]

/-- Equations merged from scratch put the sides of an atom in one class exactly if the atom is true
wherever the equations are. -/
theorem Scratch.entails_iff (h : solver.Scratch atoms) (hnamed : ∀ pair ∈ atoms, pair.2.WellNamed)
    (hsides : solver.sides.find? atom = some sides)
    (hpremises : ∀ premise ∈ premises, ∃ pair, solver.sides.find? premise = some pair) :
    solver.entails premises sides = true ↔ Implies atoms premises atom := by
  have hmem : ∀ {premise pair}, premise ∈ premises → solver.sides.find? premise = some pair →
      pair ∈ solver.equationsFor premises :=
    fun hpremise hpair => List.mem_filterMap.2 ⟨_, hpremise, hpair⟩
  constructor
  · intro hentails D M hholds
    rw [h.holds_iff_agree hnamed M hsides]
    apply (h.entails_iff_related.1 hentails).least (isCongruence_agree solver.pristine M)
    intro pair hpair
    obtain ⟨premise, hpremise, hfind⟩ := List.mem_filterMap.1 hpair
    exact (h.holds_iff_agree hnamed M hfind).1 (hholds premise hpremise)
  · -- the classes are themselves such a structure
    intro himplies
    have hcloses := h.closes_foldl h.closes premises
    rw [entails, ← h.holds_iff_same hcloses hsides]
    apply himplies
    intro premise hpremise
    obtain ⟨pair, hpair⟩ := hpremises premise hpremise
    rw [h.holds_iff_same hcloses hpair, hcloses.same]
    exact .equation (List.mem_append_left _ (List.mem_reverse.2 (hmem hpremise hpair)))

/-! ## Superfluous equations -/

/-- What is kept entails the atom, and without any one of its equations it does not: equations
dropped later do not make one needed before superfluous. -/
theorem Scratch.minimise_needs (h : solver.Scratch atoms) {kept rest : List Atom}
    (hentails : solver.entails (kept ++ rest) sides = true)
    (hneeded : ∀ reason ∈ kept,
      solver.entails ((kept ++ rest).filter (· != reason)) sides ≠ true) :
    solver.entails (solver.minimise sides kept rest) sides = true ∧
      ∀ reason ∈ solver.minimise sides kept rest,
        solver.entails ((solver.minimise sides kept rest).filter (· != reason)) sides ≠ true := by
  induction rest generalizing kept with
  | nil =>
    rw [List.append_nil] at hentails hneeded
    exact ⟨hentails, hneeded⟩
  | cons first rest ih =>
    rw [minimise]
    by_cases hwithout : solver.entails (kept ++ rest) sides = true
    · rw [if_pos hwithout]
      refine ih hwithout fun reason hreason hless => hneeded reason hreason (h.entails_mono ?_ hless)
      exact (((List.sublist_cons_self first rest).append_left kept).filter _).subset
    · rw [if_neg hwithout]
      have hsame : kept ++ [first] ++ rest = kept ++ first :: rest := by simp
      refine ih (hsame ▸ hentails) fun reason hreason => ?_
      rw [hsame]
      rcases List.mem_append.1 hreason with hreason | hreason
      · exact hneeded reason hreason
      · -- the first one was just found to be needed
        rw [List.mem_singleton.1 hreason]
        refine fun hless => hwithout (h.entails_mono (fun other hother => ?_) hless)
        obtain ⟨hother, hne⟩ := List.mem_filter.1 hother
        rw [bne_iff_ne] at hne
        rcases List.mem_append.1 hother with hother | hother
        · exact List.mem_append_left _ hother
        · exact List.mem_append_right _ ((List.mem_cons.1 hother).resolve_left hne)

/-! ## Explanations -/

def lemmaFor (reasons : List Atom) (atom : Atom) : Clause :=
  reasons.map (fun reason => ⟨reason, false⟩) ++ [⟨atom, true⟩]

/-- Some of the atoms asserted are the reasons of another one, and none of them is superfluous. -/
structure Explains (atoms : List (Atom × Formula)) (asserted : List Atom) (atom : Atom)
    (reasons : List Atom) : Prop where
  ordered : reasons.Sublist asserted
  distinct : reasons.Nodup
  other : atom ∉ reasons
  valid : ∀ (D : Type) (M : Structure D), ∃ literal ∈ lemmaFor reasons atom, M.Holds atoms literal
  minimal : ∀ reason ∈ reasons, ¬ Implies atoms (reasons.erase reason) atom

def trueAtoms (literals : List Literal) : List Atom :=
  (literals.reverse.filter Literal.positive).map Literal.atom

theorem mem_equationsFor_trueAtoms {literals : List Literal} {pair : NodeId × NodeId} :
    pair ∈ solver.equationsFor (trueAtoms literals) ↔ pair ∈ solver.equationsOf literals := by
  rw [mem_equationsOf, equationsFor, List.mem_filterMap]
  simp [trueAtoms, and_assoc]

theorem Runs.same_eq_entails (h : Runs atoms solver history) (hscratch : solver.Scratch atoms)
    (a b : NodeId) :
    solver.classes.same a b = solver.entails (trueAtoms history.live) (a, b) := by
  rw [Bool.eq_iff_iff, h.follows.follows.closes.same, hscratch.entails_iff_related]
  exact ⟨.mono fun pair => mem_equationsFor_trueAtoms.2, .mono fun pair => mem_equationsFor_trueAtoms.1⟩

theorem Runs.trueAtoms_eq (h : Runs atoms solver history) (hfresh : atom ∉ trueAtoms history.live) :
    (solver.assertions.literals.filter fun literal =>
      literal.positive && literal.atom != atom).map Literal.atom = trueAtoms history.live := by
  rw [trueAtoms, h.follows.follows.literals]
  congr 1
  refine List.filter_congr fun literal hmem => ?_
  cases hpositive : literal.positive with
  | false => rfl
  | true =>
    rw [Bool.true_and, bne_iff_ne]
    rintro rfl
    exact hfresh (List.mem_map_of_mem (List.mem_filter.2 ⟨hmem, hpositive⟩))

theorem Runs.sides_of_mem_trueAtoms (h : Runs atoms solver history) {premise : Atom}
    (hmem : premise ∈ trueAtoms history.live) : ∃ pair, solver.sides.find? premise = some pair := by
  obtain ⟨literal, hliteral, rfl⟩ := List.mem_map.1 hmem
  apply h.coherent.exact.known
  rw [h.follows.follows.literals]
  exact (List.mem_filter.1 hliteral).1

/-- A clause is true in all structures if its last literal is wherever the reasons are. -/
theorem Scratch.valid_lemmaFor (h : solver.Scratch atoms) {reasons : List Atom}
    (hreasons : ∀ reason ∈ reasons, ∃ pair, solver.sides.find? reason = some pair)
    (himplies : Implies atoms reasons atom) (D : Type) (M : Structure D) :
    ∃ literal ∈ lemmaFor reasons atom, M.Holds atoms literal := by
  by_cases hholds : ∀ reason ∈ reasons, M.Holds atoms ⟨reason, true⟩
  · exact ⟨⟨atom, true⟩, List.mem_append_right _ List.mem_cons_self, himplies D M hholds⟩
  · obtain ⟨reason, hreason, hfails⟩ := not_forall₂.1 hholds
    obtain ⟨pair, hpair⟩ := hreasons reason hreason
    obtain ⟨formula, hformula, _⟩ := h.reads reason pair hpair
    refine ⟨⟨reason, false⟩, List.mem_append_left _ (List.mem_map_of_mem hreason), formula, hformula, ?_⟩
    refine iff_of_false (fun hmodels => hfails ⟨formula, hformula, ?_⟩) (by simp)
    exact iff_of_true hmodels rfl

/-- An atom that is not asserted true and whose sides are in one class is explained. -/
theorem Runs.explains (h : Runs atoms solver history) (hscratch : solver.Scratch atoms)
    (hnamed : ∀ pair ∈ atoms, pair.2.WellNamed) (hsides : solver.sides.find? atom = some sides)
    (hsame : solver.classes.same sides.1 sides.2 = true) (hfresh : atom ∉ trueAtoms history.live) :
    ∃ reasons, solver.explain atom = .ok (lemmaFor reasons atom) ∧
      Explains atoms (trueAtoms history.live) atom reasons := by
  have hall : solver.entails (trueAtoms history.live) sides = true :=
    (h.same_eq_entails hscratch sides.1 sides.2).symm.trans hsame
  -- what is left entails the equation, and would not without any one of its atoms
  obtain ⟨hentails, hneeds⟩ := hscratch.minimise_needs
    (show solver.entails ([] ++ trueAtoms history.live) sides = true from hall) nofun
  have hsublist : (solver.minimise sides [] (trueAtoms history.live)).Sublist
    (trueAtoms history.live) := minimise_sublist sides [] _
  generalize hreasons : solver.minimise sides [] (trueAtoms history.live) = reasons at *
  have hknown : ∀ reason ∈ reasons, ∃ pair, solver.sides.find? reason = some pair :=
    fun reason hmem => h.sides_of_mem_trueAtoms (hsublist.subset hmem)
  have hnodup : reasons.Nodup := by
    refine .sublist (hsublist.trans ?_) h.coherent.exact.nodup
    rw [← h.trueAtoms_eq hfresh]
    exact List.filter_sublist.map _
  refine ⟨reasons, ?_, hsublist, hnodup, fun hmem => hfresh (hsublist.subset hmem), ?_, ?_⟩
  · rw [Solver.explain, hsides]
    dsimp only
    rw [h.trueAtoms_eq hfresh, if_pos hall, hreasons, lemmaFor]
  · exact hscratch.valid_lemmaFor hknown ((hscratch.entails_iff hnamed hsides hknown).1 hentails)
  · intro reason hmem himplies
    apply hneeds reason hmem
    have hrest : ∀ other ∈ reasons.erase reason, ∃ pair, solver.sides.find? other = some pair :=
      fun other hother => hknown other (List.mem_of_mem_erase hother)
    have hless := (hscratch.entails_iff hnamed hsides hrest).2 himplies
    rwa [hnodup.erase_eq_filter] at hless

theorem of_mem_literals {literal : Literal} (h : literal ∈ solver.propagate.literals) :
    literal.atom ∈ solver.equalAtoms ∧ solver.value? literal.atom ≠ some true := by
  cases hverdict : solver.propagate with
  | consistent =>
    rw [hverdict] at h
    exact absurd h List.not_mem_nil
  | entailed literals =>
    rw [hverdict] at h
    obtain ⟨_, hequal, hvalue⟩ := ((of_propagate_entailed hverdict).2 literal).1 h
    exact ⟨hequal, by simp [hvalue]⟩
  | conflict other =>
    rw [hverdict] at h
    cases List.mem_singleton.1 h
    obtain ⟨hequal, hvalue⟩ := of_propagate_conflict hverdict
    exact ⟨hequal, by simp [hvalue]⟩

/-- After whatever calls the classes are those merged from scratch, and each literal that
propagation gives, whether it follows or is in conflict, has an explanation. The reasons are atoms
asserted true, in the order in which they were; the clause is true in all structures, and the atom
does not follow from fewer of the reasons. -/
theorem explanation_minimal (atoms : List (Atom × Formula))
    (hparsed : ∀ pair ∈ atoms, ∃ text, Formula.parse text = .ok pair.2) (calls : List Call) :
    (∀ a b, (after atoms calls).classes.same a b =
      (after atoms calls).entails (trueAtoms (asserted atoms calls)) (a, b)) ∧
    ∀ literal ∈ (after atoms calls).propagate.literals, ∃ reasons,
      (after atoms calls).explain literal.atom = .ok (lemmaFor reasons literal.atom) ∧
        Explains atoms (trueAtoms (asserted atoms calls)) literal.atom reasons := by
  have hruns := runs_after atoms calls
  have hscratch := scratch_after atoms calls
  have hnamed : ∀ pair ∈ atoms, pair.2.WellNamed := by
    intro pair hmem
    obtain ⟨text, hparse⟩ := hparsed pair hmem
    exact (Formula.parse_spec hparse).1
  refine ⟨hruns.same_eq_entails hscratch, fun literal hliteral => ?_⟩
  obtain ⟨hequal, hvalue⟩ := of_mem_literals hliteral
  obtain ⟨sides, hsides, hsame⟩ := hruns.knows.sides_of_mem_equalAtoms hequal
  refine hruns.explains hscratch hnamed hsides hsame fun hmem => hvalue ?_
  obtain ⟨other, hother, heq⟩ := List.mem_map.1 hmem
  obtain ⟨hother, hpositive⟩ := List.mem_filter.1 hother
  rw [← hruns.follows.follows.literals] at hother
  rw [← heq, hruns.coherent.exact.valued other hother, hpositive]

/-- The atoms `a = b`, `c = d`, `b = c`, `g(a) = g(d)` and `a = w`. -/
def linkAtoms : List (Atom × Formula) :=
  [(0, .equality (.const "a") (.const "b")), (1, .equality (.const "c") (.const "d")),
    (2, .equality (.const "b") (.const "c")),
    (3, .equality (.app "g" [.const "a"]) (.app "g" [.const "d"])),
    (4, .equality (.const "a") (.var "w"))]

/-- What was asserted false is taken back, and all atoms but the fourth are asserted true. -/
def linkCalls : List Call :=
  [.openLevel, .assert ⟨2, false⟩, .backtrack 0, .assert ⟨0, true⟩, .assert ⟨1, true⟩,
    .assert ⟨4, true⟩, .assert ⟨2, true⟩]

theorem lemmaFor_injective {reasons reasons' : List Atom} (h : lemmaFor reasons atom =
    lemmaFor reasons' atom) : reasons = reasons' :=
  List.map_injective_iff.2 (fun _ _ heq => congrArg Literal.atom heq) (List.append_cancel_right h)

/-- The three links between `a` and `d` are the reasons of `g(a) = g(d)`, and `a = w` is not. -/
theorem explanation_minimal_links :
    (∀ pair ∈ linkAtoms, ∃ text, Formula.parse text = .ok pair.2) ∧
      (after linkAtoms linkCalls).propagate.literals = [⟨3, true⟩] ∧
        (after linkAtoms linkCalls).explain 3 = .ok (lemmaFor [0, 1, 2] 3) ∧
          Explains linkAtoms [0, 1, 4, 2] 3 [0, 1, 2] := by
  have hparsed : ∀ pair ∈ linkAtoms, ∃ text, Formula.parse text = .ok pair.2 := by
    simp only [linkAtoms, List.forall_mem_cons]
    refine ⟨⟨"a=b", ?_⟩, ⟨"c=d", ?_⟩, ⟨"b=c", ?_⟩, ⟨"g(a)=g(d)", ?_⟩, ⟨"a=w", ?_⟩,
      List.forall_mem_nil _⟩ <;> decide +kernel
  have hliterals : (after linkAtoms linkCalls).propagate.literals = [⟨3, true⟩] := by decide +kernel
  have hexplain : (after linkAtoms linkCalls).explain 3 = .ok (lemmaFor [0, 1, 2] 3) := by
    decide +kernel
  have hasserted : trueAtoms (asserted linkAtoms linkCalls) = [0, 1, 4, 2] := by decide +kernel
  obtain ⟨reasons, hreasons, hexplains⟩ := (explanation_minimal linkAtoms hparsed linkCalls).2
    ⟨3, true⟩ (hliterals ▸ List.mem_cons_self)
  obtain rfl := lemmaFor_injective (Except.ok.inj (hexplain.symm.trans hreasons))
  exact ⟨hparsed, hliterals, hexplain, hasserted ▸ hexplains⟩

end Solver

end Satisfiability.Equality
