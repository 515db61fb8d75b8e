import Satisfiability.Proofs.Context.ClauseFile
import Satisfiability.Proofs.Context.Loading
import Satisfiability.Proofs.Context.Table

/-!
# Clauses read from a file

As long as no decision has been made, clauses of integers are added to a context (`Free.addAll`),
each as it is (`Took`), unless the numbers for atoms or clauses run out. So a clause file of which
the integers are known is read, and clauses that were written as lines are read as they were, over
the atoms that have their numbers as names (`readClauseFile_integers`).
-/

namespace Satisfiability.Context

open Search Step Text

variable {ρ : Type} {ctx ctx' : Context ρ} {clause canonical : Clause} {literal : Literal}

/-! ## What is added -/

def StoredAs (store store' : ClauseStore) : Clause → Prop
  | [] => store' = store
  | [literal] => store' = (store.noteUnit literal .problem).2
  | clause => ∃ watched : WatchedClause, watched.literals.Perm clause ∧ store' =
      { store with problem := { store.problem with stored := store.problem.stored.push watched } }

structure Free (ctx : Context ρ) : Prop where
  coherent : ctx.atoms.Coherent
  undecided : ctx.trail.hasDecision = false

structure Took (ctx : Context ρ) (clause : Clause) (ctx' : Context ρ) : Prop where
  free : ctx'.Free
  retains : ctx.Retains ctx'
  count : ctx'.atoms.count = ctx.atoms.count
  refuted : ctx.state = .unsatisfiable ∨ clause = [] → ctx'.state = .unsatisfiable
  stored : ∀ canonical, clause.canonical? = some canonical →
    StoredAs ctx.clauses ctx'.clauses canonical

theorem hasDecision_push (trail : Trail) (literal : Literal) :
    (trail.push literal).hasDecision = trail.hasDecision := by
  unfold Trail.push Trail.hasDecision
  cases trail.levels <;> rfl

/-- What a unit clause is the reason of becomes true, and the clauses are left alone. -/
theorem Free.record_unit (h : ctx.Free) (hatom : literal.atom < ctx.atoms.count) (source : Source) :
    Ensures (record literal (some (.unit source literal))) ctx (fun _ ctx' => ctx'.Free ∧
      ctx.Retains ctx' ∧ ctx'.atoms.count = ctx.atoms.count ∧ ctx'.state = ctx.state ∧
      ctx'.clauses = ctx.clauses) never := by
  obtain ⟨atoms, hset, hcoherent, hcount, hname, -⟩ :=
    h.coherent.setValue?_spec hatom ctx.trail.level ctx.trail.size
  unfold record
  simp only [ensures_bind, ensures_get, ensures_pure, hset, entry, ensures_set]
  refine ⟨⟨hcoherent, ?_⟩, ⟨rfl, fun atom name h => (hname atom).trans h⟩, hcount, trivial, trivial⟩
  rw [hasDecision_push]
  exact h.undecided

theorem Free.store (h : ctx.Free) (hlength : 2 ≤ canonical.length)
    (hatoms : ∀ literal ∈ canonical, literal.atom < ctx.atoms.count) :
    Ends (storeClause canonical .problem) ctx (fun _ ctx' => ctx'.Free ∧ ctx.Retains ctx' ∧
      ctx'.atoms.count = ctx.atoms.count ∧ ctx'.state = ctx.state ∧
      StoredAs ctx.clauses ctx'.clauses canonical) Depleted := by
  have hperm := perm_watchOrder ctx canonical
  obtain ⟨first, second, others, horder⟩ := ctx.exists_watchOrder hlength
  rw [horder] at hperm
  unfold storeClause
  simp only [ends_bind, if_neg (Nat.not_lt.2 hlength), ends_get, horder]
  refine ends_of_ensures (forM_bump_spec _ h.coherent fun atom hatom => ?_) ?_
  · obtain ⟨literal, hliteral, rfl⟩ := List.mem_map.1 hatom
    exact hatoms literal (hperm.mem_iff.1 hliteral)
  · rintro _ _ ⟨table, rfl, hcoherent, hsame⟩
    by_cases hfull : (ctx.clauses.shelf .problem).isFull
    · simp only [ClauseStore.store_full hfull, ends_throw]
      exact .clauses hfull
    simp only [ClauseStore.store, if_neg hfull, ends_bind, ends_set, ends_pure]
    refine ⟨⟨hcoherent, h.undecided⟩, ⟨rfl, fun atom name h => (hsame.name atom).trans h⟩,
      hsame.count, trivial, ?_⟩
    rcases canonical with - | ⟨a, - | ⟨b, rest⟩⟩
    · exact absurd hlength (by decide)
    · exact absurd hlength (Nat.not_succ_le_self 1)
    · exact ⟨⟨first, second, others⟩, hperm, rfl⟩

theorem Free.addClause (h : ctx.Free) (hatoms : ∀ literal ∈ clause, literal.atom < ctx.atoms.count) :
    Ends (addClause clause) ctx (fun _ ctx' => ctx.Took clause ctx') Depleted := by
  unfold Context.addClause
  simp only [ends_bind, ends_get, h.undecided, Bool.false_eq_true, if_false]
  cases hcanonical : clause.canonical? with
  | none =>
    refine ⟨h, .refl ctx, rfl, fun hrefuted => hrefuted.elim id ?_, fun _ hsome => ?_⟩
    · rintro rfl
      exact absurd hcanonical (by simp [Clause.canonical?, Clause.canonicalFrom])
    · rw [hcanonical] at hsome
      exact absurd hsome (by simp)
  | some canonical =>
    obtain ⟨hnodup, hmem⟩ := Clause.canonical?_eq_some hcanonical
    have hempty : clause = [] → canonical = [] := by
      rintro rfl
      exact List.eq_nil_iff_forall_not_mem.2 fun literal hliteral =>
        List.not_mem_nil ((hmem literal).1 hliteral)
    have htook : ∀ ctx' : Context ρ, ctx'.Free → ctx.Retains ctx' →
        ctx'.atoms.count = ctx.atoms.count →
        (ctx.state = .unsatisfiable ∨ clause = [] → ctx'.state = .unsatisfiable) →
        StoredAs ctx.clauses ctx'.clauses canonical → ctx.Took clause ctx' := by
      intro ctx' hfree hretains hcount hrefuted hstored
      refine ⟨hfree, hretains, hcount, hrefuted, fun canonical' hsome => ?_⟩
      rw [hcanonical] at hsome
      cases hsome
      exact hstored
    have hatoms' : ∀ literal ∈ canonical, literal.atom < ctx.atoms.count :=
      fun literal hliteral => hatoms literal ((hmem literal).1 hliteral)
    -- the empty clause, a clause of one literal, and one that is stored
    rcases canonical with _ | ⟨first, _ | ⟨second, rest⟩⟩
    · exact htook _ ⟨h.coherent, h.undecided⟩ ⟨rfl, fun _ _ => id⟩ rfl (fun _ => rfl) rfl
    · have hfree : (ctx.withUnit first .problem).Free := ⟨h.coherent, h.undecided⟩
      have hretains : ctx.Retains (ctx.withUnit first .problem) := ⟨rfl, fun _ _ => id⟩
      have hnot : ¬ clause = [] := fun heq => List.cons_ne_nil _ _ (hempty heq)
      simp only [ends_bind]
      refine ends_of_ensures (noteUnit_spec first .problem) ?_
      rintro _ _ ⟨rfl, rfl⟩
      rw [ends_get]
      cases (ctx.withUnit first .problem).valuation.status first with
      | unvalued =>
        rw [ends_bind]
        refine ends_of_ensures (hfree.record_unit (hatoms' first List.mem_cons_self) _) ?_
        rintro _ ctx' ⟨hfree', hretains', hcount, hstate, hclauses⟩
        exact htook ctx' hfree' (hretains.trans hretains') hcount
          (fun hor => hstate.trans (hor.resolve_right hnot)) hclauses
      | holds => exact htook _ hfree hretains rfl (fun hor => hor.resolve_right hnot) rfl
      | fails =>
        exact htook _ ⟨h.coherent, h.undecided⟩ ⟨rfl, fun _ _ => id⟩ rfl (fun _ => rfl) rfl
    · have hnot : ¬ clause = [] := fun heq => List.cons_ne_nil _ _ (hempty heq)
      simp only [ends_bind, ends_discard, ends_pure]
      refine ends_mono (h.store (by simp) hatoms') ?_ fun _ _ => id
      rintro _ ctx' ⟨hfree', hretains', hcount, hstate, hstored⟩
      exact htook ctx' hfree' hretains' hcount (fun hor => hstate.trans (hor.resolve_right hnot))
        hstored

/-! ## Clauses of integers -/

/-- The literal is over the atom named by the absolute value, and has the sign. -/
structure Reads (ctx : Context ρ) (n : Int) (literal : Literal) : Prop where
  name : ctx.atoms.name? literal.atom = some (Nat.repr n.natAbs)
  positive : literal.positive = decide (0 < n)

theorem Reads.keep {n : Int} (h : ctx.Reads n literal) (hretains : ctx.Retains ctx') :
    ctx'.Reads n literal :=
  ⟨hretains.name _ _ h.name, h.positive⟩

theorem Reads.forall_keep {numbers : List Int} (h : List.Forall₂ ctx.Reads numbers clause)
    (hretains : ctx.Retains ctx') : List.Forall₂ ctx'.Reads numbers clause :=
  h.imp fun _ _ hreads => hreads.keep hretains

structure Looked (ctx ctx' : Context ρ) : Prop where
  free : ctx'.Free
  retains : ctx.Retains ctx'
  state : ctx'.state = ctx.state
  clauses : ctx'.clauses = ctx.clauses

theorem Looked.trans {ctx'' : Context ρ} (h : ctx.Looked ctx') (h' : ctx'.Looked ctx'') :
    ctx.Looked ctx'' :=
  ⟨h'.free, h.retains.trans h'.retains, h'.state.trans h.state, h'.clauses.trans h.clauses⟩

theorem Free.literalOf (h : ctx.Free) (n : Int) :
    Ends (literalOf n) ctx (fun literal ctx' => ctx.Looked ctx' ∧ ctx'.Reads n literal)
      Depleted := by
  unfold Context.literalOf atomNamed
  rw [ends_bind, ends_bind, ends_get]
  split
  · rename_i atom hfound
    exact ⟨⟨h, .refl ctx, rfl, rfl⟩, AtomTable.name?_of_lastNamed? hfound, rfl⟩
  · refine ends_mono (ends_and (freshAtom_named h.coherent (Nat.repr n.natAbs))
      (freshAtom_spec h.coherent (Nat.repr n.natAbs))) ?_ fun _ _ => And.left
    rintro atom ctx' ⟨hnames, rfl, hwidened⟩
    refine ⟨⟨⟨hwidened.coherent, by rw [hwidened.trail]; exact h.undecided⟩,
      ⟨hwidened.config, fun other name hname => ?_⟩, hwidened.state, hwidened.clauses⟩, ?_, rfl⟩
    · rw [hnames, if_neg (Nat.ne_of_lt (lt_count_of_name? hname))]
      exact hname
    · rw [hnames, if_pos rfl]

theorem Free.literalsOf (h : ctx.Free) (numbers : List Int) :
    Ends (numbers.mapM Context.literalOf) ctx (fun literals ctx' => ctx.Looked ctx' ∧
      List.Forall₂ ctx'.Reads numbers literals) Depleted := by
  induction numbers generalizing ctx with
  | nil => exact ⟨⟨h, .refl ctx, rfl, rfl⟩, .nil⟩
  | cons n rest ih =>
    rw [List.mapM_cons]
    simp only [ends_bind, ends_pure]
    refine ends_mono (h.literalOf n) ?_ fun _ _ => id
    rintro literal ctx₁ ⟨hlooked₁, hreads⟩
    refine ends_mono (ih hlooked₁.free) ?_ fun _ _ => id
    rintro literals ctx₂ ⟨hlooked₂, hrest⟩
    exact ⟨hlooked₁.trans hlooked₂, .cons (hreads.keep hlooked₂.retains) hrest⟩

theorem Free.addNumbers (h : ctx.Free) (numbers : List Int) :
    Ends (addNumbers numbers) ctx (fun _ ctx' => ∃ literals between,
      ctx.Looked between ∧ between.Took literals ctx' ∧ List.Forall₂ ctx'.Reads numbers literals)
      Depleted := by
  unfold Context.addNumbers
  rw [ends_bind]
  refine ends_mono (h.literalsOf numbers) ?_ fun _ _ => id
  rintro literals ctx₁ ⟨hlooked, hreads⟩
  have hatoms : ∀ literal ∈ literals, literal.atom < ctx₁.atoms.count := by
    intro literal hmem
    obtain ⟨_, _, hliteral⟩ := exists_of_mem_right hreads hmem
    exact lt_count_of_name? hliteral.name
  rw [ends_discard]
  refine ends_mono (hlooked.free.addClause hatoms) (fun _ ctx' htook => ?_) fun _ _ => id
  exact ⟨literals, ctx₁, hlooked, htook, Reads.forall_keep hreads htook.retains⟩

/-- Without a decision, clauses of integers are added as long as there are numbers for them. -/
theorem Free.addAll (h : ctx.Free) (clauses : List (List Int)) :
    Ends (clauses.forM Context.addNumbers) ctx (fun _ ctx' => ctx'.Free) Depleted := by
  induction clauses generalizing ctx with
  | nil => exact h
  | cons numbers rest ih =>
    rw [ends_forM_cons]
    refine ends_mono (h.addNumbers numbers) ?_ fun _ _ => id
    rintro _ ctx₁ ⟨_, _, _, htook, _⟩
    exact ih htook.free

/-! ## Clauses as lines -/

/-- The store has these clauses, each as it is watched, and no others; one without literals refutes
the problem. -/
structure Lists (ctx : Context ρ) (clauses : List Clause) : Prop where
  units : ctx.clauses.problem.units.toList.map (fun literal => [literal]) =
    clauses.filter (·.length = 1)
  stored : List.Forall₂ List.Perm (ctx.clauses.problem.stored.toList.map WatchedClause.literals)
    (clauses.filter (2 ≤ ·.length))
  additions : ctx.clauses.additionClauses = []
  refuted : [] ∈ clauses → ctx.state = .unsatisfiable

theorem Lists.append {clauses : List Clause} (h : ctx.Lists clauses)
    (hstored : StoredAs ctx.clauses ctx'.clauses clause)
    (hrefuted : ctx.state = .unsatisfiable ∨ clause = [] → ctx'.state = .unsatisfiable) :
    ctx'.Lists (clauses ++ [clause]) := by
  have hstate : [] ∈ clauses ++ [clause] → ctx'.state = .unsatisfiable := by
    intro hmem
    rcases List.mem_append.1 hmem with hmem | hmem
    · exact hrefuted (Or.inl (h.refuted hmem))
    · exact hrefuted (Or.inr (List.mem_singleton.1 hmem).symm)
  -- a clause goes to the units, to the stored ones or to neither, by its length
  match clause, hstored with
  | [], hstored =>
    rw [StoredAs] at hstored
    refine ⟨?_, ?_, ?_, hstate⟩
    · rw [hstored, List.filter_append, h.units]
      simp
    · rw [hstored, List.filter_append]
      simpa using h.stored
    · rw [hstored]
      exact h.additions
  | [literal], hstored =>
    rw [StoredAs] at hstored
    refine ⟨?_, ?_, ?_, hstate⟩
    · rw [hstored, List.filter_append, ← h.units]
      simp [ClauseStore.noteUnit, ClauseStore.setShelf, ClauseStore.shelf]
    · rw [hstored, List.filter_append]
      simpa [ClauseStore.noteUnit, ClauseStore.setShelf, ClauseStore.shelf] using h.stored
    · rw [hstored]
      exact h.additions
  | first :: second :: rest, hstored =>
    obtain ⟨watched, hperm, hstored⟩ := hstored
    refine ⟨?_, ?_, ?_, hstate⟩
    · rw [hstored, List.filter_append, ← h.units]
      simp
    · rw [hstored, List.filter_append]
      simp only [Array.toList_push, List.map_append, List.map_cons, List.map_nil]
      refine List.rel_append h.stored ?_
      simpa using hperm
    · rw [hstored]
      exact h.additions

/-! ### Canonical clauses -/

theorem natAbs_toInt (literal : Literal) : literal.toInt.natAbs = literal.atom + 1 := by
  unfold Literal.toInt
  split <;> omega

theorem toInt_pos_iff (literal : Literal) : 0 < literal.toInt ↔ literal.positive = true := by
  obtain ⟨atom, positive⟩ := literal
  have below : ¬ (0 : Int) < -((atom : Int) + 1) := by omega
  have above : (0 : Int) < (atom : Int) + 1 := by omega
  cases positive
  · exact iff_of_false below Bool.false_ne_true
  · exact iff_of_true above rfl

theorem nodup_atoms_of_reads {literals : Clause}
    (h : List.Forall₂ (fun literal => ctx.Reads literal.toInt) clause literals)
    (hnodup : clause.atoms.Nodup) : literals.atoms.Nodup := by
  induction h with
  | nil => exact List.nodup_nil
  | @cons literal read clause literals hread hreads ih =>
    obtain ⟨hnot, hrest⟩ := List.nodup_cons.1 hnodup
    refine List.nodup_cons.2 ⟨fun hmem => hnot ?_, ih hrest⟩
    obtain ⟨read', hmem', heq⟩ := List.mem_map.1 hmem
    obtain ⟨literal', hliteral', hread'⟩ := exists_of_mem_right hreads hmem'
    -- the two literals are read over one atom, so they have one number
    have hname := hread'.name
    rw [heq, hread.name] at hname
    have hnumber := congrArg (fun name => natural? name.toList) (Option.some.inj hname)
    simp only [natural?_repr, natAbs_toInt, Option.some.injEq] at hnumber
    exact List.mem_map.2 ⟨literal', hliteral', (Nat.succ.inj hnumber).symm⟩

/-- The clauses are those of the file, over the atoms with their numbers as names. -/
structure Copied (ctx : Context ρ) (clauses read : List Clause) : Prop where
  reads : List.Forall₂ (List.Forall₂ fun literal => ctx.Reads literal.toInt) clauses read
  lists : ctx.Lists read

theorem Free.copy {done before : List Clause} (h : ctx.Free) (hcopied : ctx.Copied done before)
    (clauses : List Clause) (hcanonical : ∀ clause ∈ clauses, clause.canonical? = some clause) :
    Ends ((clauses.map (·.map Literal.toInt)).forM Context.addNumbers) ctx
      (fun _ ctx' => ∃ read, ctx'.Copied (done ++ clauses) read) Depleted := by
  induction clauses generalizing ctx done before with
  | nil =>
    rw [List.append_nil]
    exact ⟨before, hcopied⟩
  | cons clause rest ih =>
    obtain ⟨hclause, hrest⟩ := List.forall_mem_cons.1 hcanonical
    rw [List.map_cons, ends_forM_cons]
    refine ends_mono (h.addNumbers _) ?_ fun _ _ => id
    rintro _ ctx₁ ⟨literals, between, hlooked, htook, hreads⟩
    rw [List.forall₂_map_left_iff] at hreads
    have hcanonical' : literals.canonical? = some literals := Clause.canonical?_eq_self.2
      (nodup_atoms_of_reads hreads (Clause.canonical?_eq_self.1 hclause))
    have hstored := htook.stored _ hcanonical'
    rw [hlooked.clauses] at hstored
    have hrefuted := htook.refuted
    rw [hlooked.state] at hrefuted
    have hretains := hlooked.retains.trans htook.retains
    have hcopied₁ : ctx₁.Copied (done ++ [clause]) (before ++ [literals]) := by
      refine ⟨List.rel_append ?_ (.cons hreads .nil), hcopied.lists.append hstored hrefuted⟩
      exact hcopied.reads.imp fun _ _ hread => hread.imp fun _ _ hliteral => hliteral.keep hretains
    have hall := ih htook.free hcopied₁ hrest
    rwa [List.append_assoc] at hall

/-! ### Names -/

/-- The literal over the atom that is named by the number of the literal's atom. -/
def renamed? (ctx : Context ρ) (literal : Literal) : Option Literal :=
  (ctx.atoms.atomOf? (Nat.repr (literal.atom + 1))).map fun atom => ⟨atom, literal.positive⟩

def namedLiteral (n : Int) : Propositional.NamedLiteral := ⟨Nat.repr n.natAbs, decide (0 < n)⟩

theorem addNumbers_eq (numbers : List Int) : (addNumbers numbers : Step (Context ρ) Unit) =
    addNamedClause (numbers.map namedLiteral) := by
  rw [addNumbers, addNamedClause, List.mapM_map]
  rfl

theorem forM_addNumbers_eq (clauses : List (List Int)) :
    (clauses.forM addNumbers : Step (Context ρ) PUnit) =
      (clauses.map (·.map namedLiteral)).forM addNamedClause := by
  induction clauses with
  | nil => rfl
  | cons numbers rest ih =>
    exact congrArg₂ (fun first others => first >>= fun _ => others) (addNumbers_eq numbers) ih

theorem Distinct.atomOf? (h : ctx.Distinct) {atom : Atom} {name : String}
    (hname : ctx.atoms.name? atom = some name) : ctx.atoms.atomOf? name = some atom := by
  cases hfound : ctx.atoms.atomOf? name with
  | none => exact absurd hname (AtomTable.name?_ne_of_lastNamed? hfound (lt_count_of_name? hname))
  | some other => rw [h other atom name (AtomTable.name?_of_lastNamed? hfound) hname]

theorem Reads.renamed? (hdistinct : ctx.Distinct) {read : Literal}
    (h : ctx.Reads literal.toInt read) : ctx.renamed? literal = some read := by
  have hname := h.name
  rw [natAbs_toInt] at hname
  rw [Context.renamed?, hdistinct.atomOf? hname, Option.map_some]
  have hpositive := h.positive
  simp only [toInt_pos_iff, Bool.decide_eq_true] at hpositive
  rw [← hpositive]

theorem mapM_eq_of_forall₂ {α β : Type} {f : α → Option β} {items : List α} {results : List β}
    (h : List.Forall₂ (fun item result => f item = some result) items results) :
    items.mapM f = some results := by
  induction h with
  | nil => rfl
  | cons hfirst _ ih =>
    rw [List.mapM_cons, hfirst, ih]
    rfl

theorem addNumbers_empty (config : Config) (random : ρ) (clauses : List Clause)
    (hcanonical : ∀ clause ∈ clauses, clause.canonical? = some clause) :
    Ends ((clauses.map (·.map Literal.toInt)).forM addNumbers) (empty config random)
      (fun _ ctx' => ∃ read, clauses.mapM (·.mapM ctx'.renamed?) = some read ∧ ctx'.Lists read)
      Depleted := by
  have hfree : (empty config random).Free := ⟨AtomTable.coherent_empty, rfl⟩
  have hcopied : (empty config random).Copied [] [] :=
    ⟨.nil, rfl, .nil, rfl, fun hmem => absurd hmem List.not_mem_nil⟩
  have hdistinct : Ends ((clauses.map (·.map Literal.toInt)).forM addNumbers)
      (empty config random) (fun _ ctx' => ctx'.Distinct) Depleted := by
    rw [forM_addNumbers_eq]
    refine ends_mono (addNamedClauses_spec _ (loaded_empty config random)) ?_ fun _ _ => id
    rintro _ ctx' ⟨_, hadded⟩
    exact hadded.loaded.distinct
  refine ends_mono (ends_and (hfree.copy hcopied clauses hcanonical) hdistinct) ?_
    fun _ _ => And.left
  rintro _ ctx' ⟨⟨read, hreads, hlists⟩, hdistinct'⟩
  refine ⟨read, mapM_eq_of_forall₂ ?_, hlists⟩
  exact hreads.imp fun clause literals hclause => mapM_eq_of_forall₂ (hclause.imp fun literal read
    hliteral => hliteral.renamed? hdistinct')

/-! ### The text of clauses -/

def fileOf (clauses : List Clause) : String := String.join (clauses.map (·.line ++ "\n"))

theorem toList_line (clause : Clause) : clause.line.toList =
    (clause.flatMap fun literal => (toString literal.toInt).toList ++ [' ']) ++ ['0'] := by
  rw [Clause.line, String.toList_append, String.toList_join, List.flatMap_map]
  simp only [String.toList_append]
  rfl

theorem words_line (clause : Clause) : words clause.line.toList =
    (clause.map fun literal => (toString literal.toInt).toList) ++ [['0']] := by
  rw [toList_line]
  induction clause with
  | nil => exact words_of_visible (List.cons_ne_nil _ _) (visible_cons (by decide) visible_nil)
  | cons literal rest ih =>
    rw [List.flatMap_cons, List.append_assoc, List.append_assoc, List.singleton_append,
      words_append_blank (toString_ne_nil _) (visible_toString _) (by decide), ih, List.map_cons,
      List.cons_append]

theorem ne_newline_of_mem_line {s : Char} (h : s ∈ clause.line.toList) : (s == '\n') = false := by
  have hvisible : isBlank s = false ∨ s = ' ' := by
    rw [toList_line, List.mem_append, List.mem_flatMap, List.mem_singleton] at h
    rcases h with ⟨literal, -, h⟩ | rfl
    · rcases List.mem_append.1 h with h | h
      · exact Or.inl (visible_toString _ s h)
      · exact Or.inr (List.mem_singleton.1 h)
    · exact Or.inl (by decide)
  refine beq_eq_false_iff_ne.2 fun heq => ?_
  subst heq
  exact absurd hvisible (by decide)

theorem says_line (hatoms : ∀ literal ∈ clause, literal.atom < halfWordCount) :
    LineSays clause.line.toList (clause.map Literal.toInt ++ [0]) none := by
  refine .integers ?_
  rw [words_line]
  refine List.rel_append ?_ (.cons (by decide) .nil)
  rw [List.forall₂_map_left_iff, List.forall₂_map_right_iff, List.forall₂_same]
  intro literal hliteral
  have hatom := Nat.succ_le_of_lt (hatoms literal hliteral)
  have hbound : halfWordCount < signBit := by decide
  refine integer?_toString ?_ ?_
  · unfold Literal.toInt
    split <;> omega
  · unfold Literal.toInt
    split <;> omega

theorem says_fileOf (clauses : List Clause)
    (hatoms : ∀ clause ∈ clauses, ∀ literal ∈ clause, literal.atom < halfWordCount) :
    FileSays (splitAtAll (· == '\n') (fileOf clauses).toList)
      (clauses.flatMap fun clause => clause.map Literal.toInt ++ [0]) none := by
  rw [fileOf, String.toList_join, List.flatMap_map]
  induction clauses with
  | nil => exact .line (.blank (List.forall_mem_nil _)) .done
  | cons clause rest ih =>
    obtain ⟨hclause, hrest⟩ := List.forall_mem_cons.1 hatoms
    have htext : (clause.line ++ "\n").toList = clause.line.toList ++ ['\n'] := String.toList_append
    rw [List.flatMap_cons, List.flatMap_cons, htext, List.append_assoc, List.singleton_append,
      splitAtAll_append_cons (fun s hs => ne_newline_of_mem_line hs) rfl]
    exact .line (says_line hclause) (ih hrest)

theorem toInt_ne_zero (literal : Literal) : literal.toInt ≠ 0 := by
  have := natAbs_toInt literal
  omega

theorem clausesOf_flatMap (clauses : List Clause) :
    clausesOf (clauses.flatMap fun clause => clause.map Literal.toInt ++ [0]) =
      clauses.map (·.map Literal.toInt) := by
  induction clauses with
  | nil => rfl
  | cons clause rest ih =>
    have hnumbers : ∀ n ∈ clause.map Literal.toInt, n ≠ 0 := by
      intro n hn
      obtain ⟨literal, -, rfl⟩ := List.mem_map.1 hn
      exact toInt_ne_zero literal
    rw [List.flatMap_cons, List.append_assoc, List.singleton_append,
      clausesOf_append_zero hnumbers, ih, List.map_cons]

/-! ## Clause files -/

/-- What comes of reading a file that says some integers, and of adding the clauses of these one
after the other: both leave the same behind, or both have the same fault. -/
theorem readClauseFile_run {text : String} {numbers : List Int} {expected : Option (Nat × Nat)}
    {post : PUnit → Context ρ → Prop} {fail : Fault → Context ρ → Prop}
    (htext : FileSays (splitAtAll (· == '\n') text.toList) numbers expected)
    (hadd : Ends ((clausesOf numbers).forM addNumbers) ctx post fail) :
    (∃ ctx', (readClauseFile text.toUTF8).run.run ctx =
        (.ok ⟨expected, (clausesOf numbers).length⟩, ctx') ∧
      ((clausesOf numbers).forM addNumbers).run.run ctx = (.ok ⟨⟩, ctx') ∧ post ⟨⟩ ctx') ∨
    ∃ fault ctx', fail fault ctx' ∧ (readClauseFile text.toUTF8).run.run ctx = (.error fault, ctx') ∧
      ((clausesOf numbers).forM addNumbers).run.run ctx = (.error fault, ctx') := by
  have hread := readClauseFile_eq (ρ := ρ) htext
  rcases run_of_ends hadd with ⟨_, ctx', hrun, hpost⟩ | ⟨fault, ctx', hrun, hfail⟩
  · refine Or.inl ⟨ctx', ?_, hrun, hpost⟩
    rw [hread, run_bind_ok hrun]
    rfl
  · refine Or.inr ⟨fault, ctx', hfail, ?_, hrun⟩
    rw [hread, run_bind_error hrun]

variable [RandomSource ρ]

/-- Without a decision, a clause file is read, and what is left behind is what comes of adding the
clauses of its integers one after the other. Clauses that were written as lines are read into an
empty context as they were, over the atoms that have their numbers as names. The only fault is that
no number is left for an atom or for a clause, and then adding the clauses has the same fault. -/
theorem readClauseFile_integers :
    (∀ (ctx : Context ρ) (text : String) (numbers : List Int) (expected : Option (Nat × Nat)),
      Called ctx → ctx.trail.hasDecision = false →
      FileSays (splitAtAll (· == '\n') text.toList) numbers expected →
      (∃ ctx', (readClauseFile text.toUTF8).run.run ctx =
          (.ok ⟨expected, (clausesOf numbers).length⟩, ctx') ∧
        ((clausesOf numbers).forM addNumbers).run.run ctx = (.ok ⟨⟩, ctx')) ∨
      ∃ fault ctx', Depleted fault ctx' ∧
        (readClauseFile text.toUTF8).run.run ctx = (.error fault, ctx') ∧
        ((clausesOf numbers).forM addNumbers).run.run ctx = (.error fault, ctx')) ∧
    ∀ (config : Config) (random : ρ) (clauses : List Clause),
      (∀ clause ∈ clauses, clause.canonical? = some clause) →
      (∀ clause ∈ clauses, ∀ literal ∈ clause, literal.atom < halfWordCount) →
      (∃ ctx' read, (readClauseFile (fileOf clauses).toUTF8).run.run (empty config random) =
          (.ok ⟨none, clauses.length⟩, ctx') ∧
        clauses.mapM (·.mapM ctx'.renamed?) = some read ∧ ctx'.Lists read) ∨
      ∃ fault ctx', Depleted fault ctx' ∧
        (readClauseFile (fileOf clauses).toUTF8).run.run (empty config random) =
          (.error fault, ctx') ∧
        ((clauses.map (·.map Literal.toInt)).forM addNumbers).run.run (empty config random) =
          (.error fault, ctx') := by
  constructor
  · intro ctx text numbers expected hcalled hdecision htext
    have hfree : ctx.Free := ⟨hcalled.coherent, hdecision⟩
    rcases readClauseFile_run htext (hfree.addAll _) with ⟨ctx', hread, hrun, -⟩ | hfault
    · exact Or.inl ⟨ctx', hread, hrun⟩
    · exact Or.inr hfault
  · intro config random clauses hcanonical hatoms
    have hadd := addNumbers_empty config random clauses hcanonical
    -- the file of a list of clauses is one text among those of the first part
    rw [← clausesOf_flatMap] at hadd
    rcases readClauseFile_run (says_fileOf clauses hatoms) hadd with
      ⟨ctx', hread, -, read, hrenamed, hlists⟩ | ⟨fault, ctx', hfault, hread, hrun⟩
    · rw [clausesOf_flatMap, List.length_map] at hread
      exact Or.inl ⟨ctx', read, hread, hrenamed, hlists⟩
    · rw [clausesOf_flatMap] at hrun
      exact Or.inr ⟨fault, ctx', hfault, hread, hrun⟩

/-- A file with a comment, a problem line, clauses across lines and a cut, and two clauses as lines.
-/
theorem readClauseFile_integers_across_lines :
    (∃ ctx' : Context SplitMix,
      (readClauseFile "c two\np cnf 3 2\n 1 -2\n0 +3\n%\nx".toUTF8).run.run (empty {} ⟨0⟩) =
          (.ok ⟨some (3, 2), 2⟩, ctx') ∧
        ([[1, -2], [3]].forM addNumbers).run.run (empty {} ⟨0⟩) = (.ok ⟨⟩, ctx')) ∧
    ∃ (ctx' : Context SplitMix) (read : List Clause),
      (readClauseFile (fileOf [[⟨4, true⟩, ⟨1, false⟩], [⟨4, false⟩]]).toUTF8).run.run (empty {} ⟨0⟩) =
          (.ok ⟨none, 2⟩, ctx') ∧
        [[⟨4, true⟩, ⟨1, false⟩], [⟨4, false⟩]].mapM (·.mapM ctx'.renamed?) = some read ∧
        ctx'.Lists read := by
  have hlines : splitAtAll (· == '\n') "c two\np cnf 3 2\n 1 -2\n0 +3\n%\nx".toList =
      ["c two".toList, "p cnf 3 2".toList, " 1 -2".toList, "0 +3".toList, "%".toList, "x".toList] := by
    decide +kernel
  have hfirst : LineSays " 1 -2".toList [1, -2] none :=
    .integers (.cons (by decide +kernel) (.cons (by decide +kernel) .nil))
  have hsecond : LineSays "0 +3".toList [0, 3] none :=
    .integers (.cons (by decide +kernel) (.cons (by decide +kernel) .nil))
  have hwords : words "p cnf 3 2".toList = ["p".toList, "cnf".toList, "3".toList, "2".toList] := by
    decide +kernel
  have hproblem : LineSays "p cnf 3 2".toList [] (some (3, 2)) :=
    .problem (by decide +kernel) hwords (by decide +kernel) (by decide +kernel)
  have htext : FileSays (splitAtAll (· == '\n') "c two\np cnf 3 2\n 1 -2\n0 +3\n%\nx".toList)
      [1, -2, 0, 3] (some (3, 2)) := by
    rw [hlines]
    exact .line (.comment (by decide +kernel)) (.line hproblem (.line hfirst (.line hsecond
      (.cut (by decide +kernel)))))
  have hcalled : Called (empty {} (⟨0⟩ : SplitMix)) := .empty _ _
  have hread := readClauseFile_integers.1 _ _ _ _ hcalled rfl htext
  have hclauses : clausesOf [1, -2, 0, 3] = [[1, -2], [3]] := by decide
  rw [hclauses] at hread
  have hcopy := readClauseFile_integers.2 {} (⟨0⟩ : SplitMix)
    [[⟨4, true⟩, ⟨1, false⟩], [⟨4, false⟩]] (by decide) (by decide)
  refine ⟨hread.resolve_right ?_, hcopy.resolve_right ?_⟩
  · -- there are numbers enough for so few clauses
    rintro ⟨fault, ctx', -, -, hrun⟩
    have hadded : (([[1, -2], [3]].forM addNumbers).run.run (empty {} (⟨0⟩ : SplitMix))).1.isOk := by
      decide +kernel
    rw [hrun] at hadded
    cases hadded
  · rintro ⟨fault, ctx', -, -, hrun⟩
    have hadded : (([[5, -2], [-5]].forM addNumbers).run.run (empty {} (⟨0⟩ : SplitMix))).1.isOk := by
      decide +kernel
    rw [show [[5, -2], [-5]] = [[⟨4, true⟩, ⟨1, false⟩], [⟨4, false⟩]].map (·.map Literal.toInt) by
      decide, hrun] at hadded
    cases hadded

end Satisfiability.Context
