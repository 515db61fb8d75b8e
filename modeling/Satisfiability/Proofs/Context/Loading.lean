import Mathlib.Data.List.Forall2
import Satisfiability.Problem
import Satisfiability.Proofs.Context.Building
import Satisfiability.Proofs.KeyMap
import Satisfiability.Proofs.Propositional.Encoding

/-!
# Loading named clauses

An atom is looked up by its name before one is created, so the atoms have different names
(`Context.Distinct`), and a value by name is the value of the one atom with that name
(`Distinct.find?_model`). Loading a normal form builds a problem that has for each of its clauses
one over the atoms with the same names, and no others, unless the numbers run out (`load_spec`).
Values that satisfy the problem make the normal form true (`holds_of_satisfies`), and truth values
of the names that make the normal form true are a model of the problem (`Added.models`).
-/

namespace Satisfiability.Context

open Search Step
open Propositional (Cnf NamedClause NamedLiteral)

variable {ρ : Type} {ctx ctx' ctx'' : Context ρ} {name : String} {clauses : List Clause}

def Distinct (ctx : Context ρ) : Prop :=
  ∀ i j name, ctx.atoms.name? i = some name → ctx.atoms.name? j = some name → i = j

structure Retains (ctx ctx' : Context ρ) : Prop where
  config : ctx'.config = ctx.config
  name : ∀ atom name, ctx.atoms.name? atom = some name → ctx'.atoms.name? atom = some name

structure Numbers (ctx : Context ρ) (named : NamedLiteral) (literal : Literal) : Prop where
  name : ctx.atoms.name? literal.atom = some named.name
  positive : literal.positive = named.positive

/-- The context holds a problem of these clauses over atoms with different names. -/
structure Loaded (ctx : Context ρ) (clauses : List Clause) : Prop extends Built ctx clauses where
  distinct : ctx.Distinct

theorem loaded_empty (config : Config) (random : ρ) : (empty config random).Loaded [] :=
  ⟨built_empty config random, fun i j name hi => absurd hi (by simp [empty, AtomTable.name?])⟩

theorem Retains.refl (ctx : Context ρ) : ctx.Retains ctx := ⟨rfl, fun _ _ => id⟩

theorem Retains.trans (h : ctx.Retains ctx') (h' : ctx'.Retains ctx'') : ctx.Retains ctx'' :=
  ⟨h'.config.trans h.config, fun atom name hname => h'.name atom name (h.name atom name hname)⟩

theorem Extends.retains (h : ctx.Extends ctx') : ctx.Retains ctx' :=
  ⟨h.config, fun atom _ hname => (h.name atom).trans hname⟩

theorem Extends.distinct (h : ctx.Extends ctx') (hdistinct : ctx.Distinct) : ctx'.Distinct :=
  fun i j name hi hj => hdistinct i j name ((h.name i).symm.trans hi) ((h.name j).symm.trans hj)

theorem Numbers.keep {named : NamedLiteral} {literal : Literal} (h : ctx.Numbers named literal)
    (hretains : ctx.Retains ctx') : ctx'.Numbers named literal :=
  ⟨hretains.name _ _ h.name, h.positive⟩

theorem lt_count_of_name? {atom : Atom} (h : ctx.atoms.name? atom = some name) :
    atom < ctx.atoms.count := by
  obtain ⟨entry, hentry, _⟩ := Option.map_eq_some_iff.1 h
  exact (Array.getElem?_eq_some_iff.1 hentry).1

/-! ## Atoms by name -/

theorem freshAtom_named (hcoherent : ctx.atoms.Coherent) (name : String) :
    Ends (freshAtom name) ctx (fun _ ctx' => ∀ atom, ctx'.atoms.name? atom =
      if atom = ctx.atoms.count then some name else ctx.atoms.name? atom) Depleted := by
  unfold freshAtom
  rw [ends_bind, ends_get]
  by_cases hfull : ctx.atoms.isFull
  · rw [if_pos hfull]
    exact .atoms hfull
  obtain ⟨table, hfresh, _, hentries⟩ := hcoherent.fresh?_spec hfull name
  simp only [if_neg hfull, ends_bind, hfresh, entry, ends_pure, ends_set]
  intro atom
  rw [AtomTable.name?, hentries, Array.getElem?_push, AtomTable.count]
  split
  · rfl
  · rfl

theorem atomNamed_spec (h : ctx.Loaded clauses) (name : String) :
    Ends (atomNamed name) ctx (fun atom ctx' => ctx'.Loaded clauses ∧ ctx.Retains ctx' ∧
      ctx'.atoms.name? atom = some name) Depleted := by
  unfold atomNamed
  rw [ends_bind, ends_get]
  split
  · rename_i atom hfound
    exact ⟨h, .refl ctx, AtomTable.name?_of_lastNamed? hfound⟩
  · rename_i hnone
    -- no atom has the name yet, so the new one is the only one
    have hnew : ∀ atom, ctx.atoms.name? atom ≠ some name := fun atom hname =>
      AtomTable.name?_ne_of_lastNamed? hnone (lt_count_of_name? hname) hname
    have hcoherent := h.waiting.intact.agrees.coherent
    refine ends_mono (ends_and (freshAtom_named hcoherent name) (freshAtom_spec hcoherent name)) ?_
      fun _ _ => And.left
    rintro atom ctx' ⟨hnames, rfl, hwidened⟩
    have hold : ∀ other other', ctx'.atoms.name? other = some other' → other ≠ ctx.atoms.count →
        ctx.atoms.name? other = some other' := fun other other' hname hne => by
      rwa [hnames, if_neg hne] at hname
    refine ⟨⟨hwidened.built h.toBuilt, fun i j other hi hj => ?_⟩,
      ⟨hwidened.config, fun other other' hname => ?_⟩, ?_⟩
    · rw [hnames] at hi hj
      split at hi <;> split at hj
      · rename_i hieq hjeq
        rw [hieq, hjeq]
      · exact absurd (hj.trans hi.symm) (hnew j)
      · exact absurd (hi.trans hj.symm) (hnew i)
      · exact h.distinct i j other hi hj
    · rw [hnames, if_neg (Nat.ne_of_lt (lt_count_of_name? hname))]
      exact hname
    · rw [hnames, if_pos rfl]

theorem atomsNamed_spec {α β : Type} (nameOf : α → String) (make : α → Atom → β) (items : List α)
    (h : ctx.Loaded clauses) :
    Ends (items.mapM fun item => do
        let atom ← atomNamed (nameOf item)
        return make item atom : Step (Context ρ) (List β)) ctx
      (fun results ctx' => ctx'.Loaded clauses ∧ ctx.Retains ctx' ∧
        List.Forall₂ (fun item result => ∃ atom, ctx'.atoms.name? atom = some (nameOf item) ∧
          result = make item atom) items results) Depleted := by
  induction items generalizing ctx with
  | nil => exact ⟨h, .refl ctx, .nil⟩
  | cons item rest ih =>
    rw [List.mapM_cons]
    simp only [ends_bind, ends_pure]
    refine ends_mono (atomNamed_spec h (nameOf item)) ?_ fun _ _ => id
    rintro atom ctx₁ ⟨h₁, hretains₁, hname⟩
    refine ends_mono (ih h₁) ?_ fun _ _ => id
    rintro results ctx₂ ⟨h₂, hretains₂, hresults⟩
    exact ⟨h₂, hretains₁.trans hretains₂, .cons ⟨atom, hretains₂.name _ _ hname, rfl⟩ hresults⟩

theorem exists_of_mem_right {α β : Type} {R : α → β → Prop} {items : List α} {results : List β}
    (h : List.Forall₂ R items results) {result : β} (hmem : result ∈ results) :
    ∃ item ∈ items, R item result := by
  induction h with
  | nil => exact absurd hmem List.not_mem_nil
  | cons hfirst _ ih =>
    rcases List.mem_cons.1 hmem with rfl | hmem
    · exact ⟨_, List.mem_cons_self, hfirst⟩
    · obtain ⟨item, hitem, hresult⟩ := ih hmem
      exact ⟨item, List.mem_cons_of_mem _ hitem, hresult⟩

/-! ## Clauses over names -/

theorem addNamedClause_spec (h : ctx.Loaded clauses) (named : NamedClause) :
    Ends (addNamedClause named) ctx (fun _ ctx' => ∃ literals, ctx'.Loaded (clauses ++ [literals]) ∧
      ctx.Retains ctx' ∧ List.Forall₂ ctx'.Numbers named literals) Depleted := by
  unfold addNamedClause
  rw [ends_bind]
  refine ends_mono (atomsNamed_spec NamedLiteral.name
    (fun named atom => (⟨atom, named.positive⟩ : Literal)) named h) ?_ fun _ _ => id
  rintro literals ctx₁ ⟨h₁, hretains₁, hliterals⟩
  have hnumbers : List.Forall₂ ctx₁.Numbers named literals := by
    refine hliterals.imp ?_
    rintro literal _ ⟨atom, hname, rfl⟩
    exact ⟨hname, rfl⟩
  have hatoms : ∀ literal ∈ literals, literal.atom < ctx₁.atoms.count := by
    intro literal hmem
    obtain ⟨_, _, hliteral⟩ := exists_of_mem_right hnumbers hmem
    exact lt_count_of_name? hliteral.name
  rw [ends_discard]
  refine ends_mono (addClause_spec h₁.toBuilt hatoms) ?_ fun _ _ hrefused => hrefused.depleted
  rintro _ ctx₂ ⟨hbuilt, hextends, _⟩
  exact ⟨literals, ⟨hbuilt, hextends.distinct h₁.distinct⟩, hretains₁.trans hextends.retains,
    hnumbers.imp fun _ _ hliteral => hliteral.keep hextends.retains⟩

/-- Clauses over names have been added. -/
structure Added (ctx : Context ρ) (clauses : List Clause) (named : List NamedClause)
    (ctx' : Context ρ) (more : List Clause) : Prop where
  loaded : ctx'.Loaded (clauses ++ more)
  retains : ctx.Retains ctx'
  numbers : List.Forall₂ (List.Forall₂ ctx'.Numbers) named more

theorem addNamedClauses_spec (named : List NamedClause) (h : ctx.Loaded clauses) :
    Ends (named.forM addNamedClause) ctx
      (fun _ ctx' => ∃ more, ctx.Added clauses named ctx' more) Depleted := by
  induction named generalizing ctx clauses with
  | nil =>
    rw [ends_forM_nil]
    exact ⟨[], (List.append_nil clauses).symm ▸ h, .refl ctx, .nil⟩
  | cons clause rest ih =>
    rw [ends_forM_cons]
    refine ends_mono (addNamedClause_spec h clause) ?_ fun _ _ => id
    rintro _ ctx₁ ⟨literals, h₁, hretains₁, hliterals⟩
    refine ends_mono (ih h₁) ?_ fun _ _ => id
    rintro _ ctx₂ ⟨more, h₂, hretains₂, hmore⟩
    rw [List.append_assoc] at h₂
    exact ⟨literals :: more, h₂, hretains₁.trans hretains₂,
      .cons (hliterals.imp fun _ _ hliteral => hliteral.keep hretains₂) hmore⟩

theorem addCnf_eq (cnf : Cnf) : (addCnf cnf : Step (Context ρ) Unit) = cnf.named.forM addNamedClause := by
  cases cnf with
  | always => rfl
  | never => simp [addCnf, Cnf.named, addNamedClause]
  | clauses kept => rfl

theorem load_spec (h : ctx.Loaded clauses) (names : List String) (cnf : Cnf) :
    Ends (load names cnf) ctx (fun _ ctx' => (∃ more, ctx.Added clauses cnf.named ctx' more) ∧
      ∀ name ∈ names, ∃ atom, ctx'.atoms.name? atom = some name) Depleted := by
  unfold load
  rw [ends_bind]
  have hnames : Ends (names.forM fun name => discard (atomNamed name) : Step (Context ρ) Unit) ctx
      (fun _ ctx' => ctx'.Loaded clauses ∧ ctx.Retains ctx' ∧
        ∀ name ∈ names, ∃ atom, ctx'.atoms.name? atom = some name) Depleted := by
    induction names generalizing ctx with
    | nil => exact ⟨h, .refl ctx, List.forall_mem_nil _⟩
    | cons name rest ih =>
      rw [ends_forM_cons, ends_discard]
      refine ends_mono (atomNamed_spec h name) ?_ fun _ _ => id
      rintro atom ctx₁ ⟨h₁, hretains₁, hname⟩
      refine ends_mono (ih h₁) ?_ fun _ _ => id
      rintro _ ctx₂ ⟨h₂, hretains₂, hrest⟩
      exact ⟨h₂, hretains₁.trans hretains₂,
        List.forall_mem_cons.2 ⟨⟨atom, hretains₂.name _ _ hname⟩, hrest⟩⟩
  refine ends_mono hnames ?_ fun _ _ => id
  rintro _ ctx₁ ⟨h₁, hretains₁, hnames⟩
  rw [addCnf_eq]
  refine ends_mono (addNamedClauses_spec cnf.named h₁) ?_ fun _ _ => id
  rintro _ ctx₂ ⟨more, h₂, hretains₂, hmore⟩
  refine ⟨⟨more, h₂, hretains₁.trans hretains₂, hmore⟩, fun name hmem => ?_⟩
  obtain ⟨atom, hname⟩ := hnames name hmem
  exact ⟨atom, hretains₂.name _ _ hname⟩

/-! ## Values by name -/

theorem Distinct.nodup_names (h : ctx.Distinct) :
    (ctx.atoms.entries.toList.map AtomEntry.name).Nodup := by
  have hname : ∀ atom, (ctx.atoms.entries.toList.map AtomEntry.name)[atom]? = ctx.atoms.name? atom := by
    intro atom
    rw [List.getElem?_map, Array.getElem?_toList]
    rfl
  rw [List.nodup_iff_getElem?_ne_getElem?]
  intro i j hlt hlength heq
  rw [hname, hname] at heq
  obtain ⟨name, hj⟩ : ∃ name, ctx.atoms.name? j = some name := by
    rw [← hname, List.getElem?_eq_getElem hlength]
    exact ⟨_, rfl⟩
  exact Nat.ne_of_lt hlt (h i j name (heq.trans hj) hj)

theorem map_fst_sublist (entries : List AtomEntry) :
    ((entries.filterMap fun entry => entry.placement.map fun placement =>
      (entry.name, placement.value)).map Prod.fst).Sublist (entries.map AtomEntry.name) := by
  induction entries with
  | nil => exact List.Sublist.slnil
  | cons entry rest ih =>
    cases hplacement : entry.placement with
    | none =>
      rw [List.filterMap_cons_none (by rw [hplacement]; rfl), List.map_cons]
      exact ih.cons _
    | some placement =>
      rw [List.filterMap_cons_some (by rw [hplacement]; rfl), List.map_cons, List.map_cons]
      exact ih.cons_cons _

theorem Distinct.find?_model (h : ctx.Distinct) {value : Bool} :
    ctx.model.find? name = some value ↔
      ∃ atom, ctx.atoms.name? atom = some name ∧ ctx.valuation atom = some value := by
  rw [model, KeyMap.find?_ofList_eq_some ((map_fst_sublist _).nodup h.nodup_names), List.mem_filterMap]
  constructor
  · rintro ⟨entry, hmem, hvalue⟩
    obtain ⟨placement, hplacement, heq⟩ := Option.map_eq_some_iff.1 hvalue
    cases heq
    obtain ⟨atom, hatom⟩ := List.mem_iff_getElem?.1 hmem
    rw [Array.getElem?_toList] at hatom
    refine ⟨atom, by rw [AtomTable.name?, hatom]; rfl, ?_⟩
    rw [valuation, AtomTable.valuation, AtomTable.placement?, hatom, Option.bind_some, hplacement]
    rfl
  · rintro ⟨atom, hname, hvalue⟩
    obtain ⟨entry, hentry, rfl⟩ := Option.map_eq_some_iff.1 hname
    obtain ⟨placement, hplacement, rfl⟩ := Option.map_eq_some_iff.1 hvalue
    rw [AtomTable.placement?, hentry, Option.bind_some] at hplacement
    refine ⟨entry, List.mem_iff_getElem?.2 ⟨atom, by rw [Array.getElem?_toList, hentry]⟩, ?_⟩
    rw [hplacement]
    rfl

def truths (ctx : Context ρ) (name : String) : Bool := ctx.model.find? name == some true

theorem Numbers.holds (hdistinct : ctx.Distinct) {named : NamedLiteral} {literal : Literal}
    (h : ctx.Numbers named literal) (hholds : ctx.valuation.status literal = .holds) :
    named.holds ctx.truths = true := by
  have hvalue := hdistinct.find?_model.2 ⟨_, h.name, Valuation.status_eq_holds.1 hholds⟩
  rw [NamedLiteral.holds, truths, hvalue, h.positive]
  cases named.positive <;> rfl

/-- Values that satisfy a clause over atoms make the clause over their names true. -/
theorem holds_of_satisfies (hdistinct : ctx.Distinct) {named : NamedClause} {clause : Clause}
    (hnumbers : List.Forall₂ ctx.Numbers named clause)
    (hsatisfies : ctx.valuation.satisfies clause = true) : named.Holds ctx.truths := by
  obtain ⟨literal, hliteral, hholds⟩ := List.any_eq_true.1 hsatisfies
  obtain ⟨named', hnamed, hnumber⟩ := exists_of_mem_right hnumbers hliteral
  exact ⟨named', hnamed, hnumber.holds hdistinct (beq_iff_eq.1 hholds)⟩

def valuesOf (ctx : Context ρ) (valuation : String → Bool) (atom : Atom) : Bool :=
  ((ctx.atoms.name? atom).map valuation).getD false

theorem Numbers.value_iff {valuation : String → Bool} {named : NamedLiteral} {literal : Literal}
    (h : ctx.Numbers named literal) :
    ctx.valuesOf valuation literal.atom = literal.positive ↔ named.holds valuation = true := by
  rw [valuesOf, h.name, h.positive, NamedLiteral.holds, beq_iff_eq]
  rfl

/-- What makes the named clauses true is a model of the clauses added for them. -/
theorem Added.models {named : List NamedClause} {more : List Clause}
    (h : ctx.Added clauses named ctx' more) {valuation : String → Bool}
    (hall : Propositional.AllHold valuation named) : Models more (ctx'.valuesOf valuation) := by
  intro clause hmem
  obtain ⟨namedClause, hnamed, hnumbers⟩ := exists_of_mem_right h.numbers hmem
  obtain ⟨literal, hliteral, hholds⟩ := hall namedClause hnamed
  obtain ⟨literal', hliteral', hnumber⟩ := exists_of_mem_right hnumbers.flip hliteral
  exact ⟨literal', hliteral', hnumber.value_iff.2 hholds⟩

end Satisfiability.Context
