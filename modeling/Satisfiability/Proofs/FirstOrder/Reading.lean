import Satisfiability.FirstOrder.Parser
import Satisfiability.Proofs.FirstOrder.Semantics
import Satisfiability.Proofs.Text.Cursor

/-!
# Reading what was written

A term or formula is well named if its names are of the kinds that their places ask for. What is
read is well named, and its text is what was read (`Formula.read_spec`); the text of a well-named
formula is read as that formula, whatever comes behind it (`Formula.read_render`). So well-named
formulas with the same text are equal (`Formula.text_injective`).
-/

namespace Satisfiability.FirstOrder

open Satisfiability.Text Cursor

/-! ## Names -/

section names

variable {c : Char} {name : String} {first : Char → Bool}

theorem beginsConstant_iff : beginsConstant c = true ↔
    48 ≤ c.toNat ∧ c.toNat ≤ 57 ∨ 97 ≤ c.toNat ∧ c.toNat ≤ 100 := by
  simp only [beginsConstant, Char.isDigit, Bool.or_eq_true, Bool.and_eq_true, decide_eq_true_eq,
    Char.le_def, UInt32.le_iff_toNat_le, ge_iff_le]
  rfl

theorem beginsVariable_iff : beginsVariable c = true ↔ 117 ≤ c.toNat ∧ c.toNat ≤ 122 := by
  simp only [beginsVariable, Bool.and_eq_true, decide_eq_true_eq, Char.le_def,
    UInt32.le_iff_toNat_le]
  rfl

theorem beginsFunction_iff : beginsFunction c = true ↔ 102 ≤ c.toNat ∧ c.toNat ≤ 116 := by
  simp only [beginsFunction, Bool.and_eq_true, decide_eq_true_eq, Char.le_def,
    UInt32.le_iff_toNat_le]
  rfl

theorem beginsRelation_iff : beginsRelation c = true ↔ 70 ≤ c.toNat ∧ c.toNat ≤ 84 := by
  simp only [beginsRelation, Bool.and_eq_true, decide_eq_true_eq, Char.le_def,
    UInt32.le_iff_toNat_le]
  rfl

theorem isNameSymbol_of_beginsRelation (h : beginsRelation c = true) : isNameSymbol c = true := by
  rw [beginsRelation_iff] at h
  have hupper : c.isUpper = true := decide_eq_true
    ⟨Nat.le_trans (by decide) h.1, Nat.le_trans h.2 (by decide)⟩
  change ((c.isUpper || c.isLower) || c.isDigit) = true
  rw [hupper, Bool.true_or, Bool.true_or]

theorem isNameWith_iff : isNameWith first name = true ↔ ∃ s more, name = String.ofList (s :: more) ∧
    first s = true ∧ ∀ symbol ∈ s :: more, isNameSymbol symbol = true := by
  unfold isNameWith
  constructor
  · intro h
    split at h
    · exact absurd h (by simp)
    · rename_i s more heq
      rw [Bool.and_eq_true, List.all_eq_true] at h
      exact ⟨s, more, by rw [← heq, String.ofList_toList], h⟩
  · rintro ⟨s, more, rfl, h⟩
    rw [String.toList_ofList]
    dsimp only
    rw [Bool.and_eq_true, List.all_eq_true]
    exact h

end names

variable {c : Cursor} {s : Char} {more rest : List Char}

theorem name_of_rest (h : c.rest = s :: (more ++ rest))
    (hmore : ∀ symbol ∈ more, isNameSymbol symbol = true) (hstops : Stops isNameSymbol rest) :
    ∃ (d : c.Shorter) (e : d.1.NotLonger), c.next? = some (s, d) ∧
      d.1.span isNameSymbol = (more, e) ∧ e.1.rest = rest := by
  obtain ⟨d, hnext, hd⟩ := next?_of_rest h
  obtain ⟨e, hspan, he⟩ := span_of_rest hd hmore hstops
  exact ⟨d, e, hnext, hspan, he⟩

/-! ## Terms -/

namespace Term

mutual

/-- The names are of the kinds that their places ask for, and functions have arguments. -/
def WellNamed : Term → Prop
  | var name => isVariable name = true
  | const name => isConstant name = true
  | app function arguments => isFunction function = true ∧ arguments ≠ [] ∧ AllWellNamed arguments

def AllWellNamed : List Term → Prop
  | [] => True
  | t :: ts => t.WellNamed ∧ AllWellNamed ts

end

def renderMore : List Term → List Char
  | [] => []
  | t :: ts => ',' :: (t.render ++ renderMore ts)

theorem renderAll_cons (t : Term) (ts : List Term) : renderAll (t :: ts) = t.render ++ renderMore ts := by
  induction ts generalizing t with
  | nil => simp [renderAll, renderMore]
  | cons next rest ih => simp [renderAll, renderMore, ih]

/-- The first symbol of a term tells it from formulas that are no equalities. -/
def Begins (s : Char) : Prop :=
  s = '_' ∨ beginsConstant s = true ∨ beginsVariable s = true ∨ beginsFunction s = true

instance : DecidablePred Begins := fun s =>
  inferInstanceAs (Decidable (s = '_' ∨ beginsConstant s = true ∨ beginsVariable s = true ∨
    beginsFunction s = true))

theorem Begins.ne {symbol : Char} (h : Begins s) (hnot : ¬ Begins symbol) : s ≠ symbol := by
  rintro rfl
  exact hnot h

theorem Begins.not_relation (h : Begins s) : ¬ beginsRelation s = true := by
  rw [beginsRelation_iff]
  rcases h with rfl | h | h | h
  · decide
  · rw [beginsConstant_iff] at h
    omega
  · rw [beginsVariable_iff] at h
    omega
  · rw [beginsFunction_iff] at h
    omega

theorem ne_underscore (h : isNameSymbol s = true) : s ≠ '_' := by
  rintro rfl
  exact absurd h (by decide)

theorem read_var {name : String} (hname : isVariable name = true) (h : c.rest = name.toList ++ rest)
    (hstops : Stops isNameSymbol rest) : Gives (read c) (var name) rest := by
  obtain ⟨s, more, rfl, hfirst, hall⟩ := isNameWith_iff.1 hname
  rw [String.toList_ofList] at h
  obtain ⟨hsymbol, hmore⟩ := List.forall_mem_cons.1 hall
  obtain ⟨d, e, hnext, hspan, he⟩ := name_of_rest h hmore hstops
  have hconstant : ¬ beginsConstant s = true := by
    rw [beginsConstant_iff]
    rw [beginsVariable_iff] at hfirst
    omega
  refine ⟨d.andThen e, ?_, he⟩
  rw [read, hnext]
  dsimp only
  rw [if_neg (ne_underscore hsymbol), if_neg (by simp [hsymbol]), hspan]
  dsimp only
  rw [if_neg hconstant, if_pos hfirst]

theorem read_const {name : String} (hname : isConstant name = true)
    (h : c.rest = name.toList ++ rest) (hstops : Stops isNameSymbol rest) :
    Gives (read c) (const name) rest := by
  rw [isConstant, Bool.or_eq_true, beq_iff_eq] at hname
  rcases hname with rfl | hname
  · have hunderscore : c.rest = '_' :: rest := h
    obtain ⟨d, hnext, hd⟩ := next?_of_rest hunderscore
    refine ⟨d, ?_, hd⟩
    rw [read, hnext]
    dsimp only
    rw [if_pos rfl]
  · obtain ⟨s, more, rfl, hfirst, hall⟩ := isNameWith_iff.1 hname
    rw [String.toList_ofList] at h
    obtain ⟨hsymbol, hmore⟩ := List.forall_mem_cons.1 hall
    obtain ⟨d, e, hnext, hspan, he⟩ := name_of_rest h hmore hstops
    refine ⟨d.andThen e, ?_, he⟩
    rw [read, hnext]
    dsimp only
    rw [if_neg (ne_underscore hsymbol), if_neg (by simp [hsymbol]), hspan]
    dsimp only
    rw [if_pos hfirst]

theorem stops_renderMore (ts : List Term) (h : Stops isNameSymbol rest) :
    Stops isNameSymbol (renderMore ts ++ rest) := by
  cases ts with
  | nil => exact h
  | cons t ts => exact stops_cons (by decide)

mutual

/-- The text of a well-named term is read as the term. -/
theorem read_render {c : Cursor} {rest : List Char} (t : Term) (hnamed : t.WellNamed)
    (h : c.rest = t.render ++ rest) (hstops : Stops isNameSymbol rest) : Gives (read c) t rest := by
  cases t with
  | var name => exact read_var hnamed h hstops
  | const name => exact read_const hnamed h hstops
  | app function arguments =>
    cases arguments with
    | nil => exact absurd rfl hnamed.2.1
    | cons first others =>
      obtain ⟨hname, -, hfirst, hothers⟩ := hnamed
      obtain ⟨s, more, rfl, hbegins, hall⟩ := isNameWith_iff.1 hname
      rw [render, renderAll_cons, String.toList_ofList] at h
      simp only [List.append_assoc, List.cons_append, List.nil_append] at h
      obtain ⟨hsymbol, hmore⟩ := List.forall_mem_cons.1 hall
      obtain ⟨d, e, hnext, hspan, he⟩ := name_of_rest h hmore (stops_cons (by decide))
      -- each cursor is given as the reader writes it
      have he' : (d.andThen e).1.rest = _ := he
      obtain ⟨f, hopen, hf⟩ := expect_of_rest he'
      have hf' : ((d.andThen e).andThen f.weaken).1.rest = _ := hf
      have hclose : Stops isNameSymbol (')' :: rest) := stops_cons (by decide)
      obtain ⟨g, hread, hg⟩ := read_render first hfirst hf' (stops_renderMore others hclose)
      have hg' : (((d.andThen e).andThen f.weaken).andThen g.weaken).1.rest = _ := hg
      obtain ⟨i, hreadMore, hi⟩ := readMore_render others hothers hg' hclose (by simp)
      have hi' : ((((d.andThen e).andThen f.weaken).andThen g.weaken).andThen i).1.rest = _ := hi
      obtain ⟨k, hend, hk⟩ := expect_of_rest hi'
      have hconstant : ¬ beginsConstant s = true := by
        rw [beginsConstant_iff]
        rw [beginsFunction_iff] at hbegins
        omega
      have hvariable : ¬ beginsVariable s = true := by
        rw [beginsVariable_iff]
        rw [beginsFunction_iff] at hbegins
        omega
      rw [read, hnext]
      dsimp only
      rw [if_neg (ne_underscore hsymbol), if_neg (by simp [hsymbol]), hspan]
      dsimp only
      rw [if_neg hconstant, if_neg hvariable, if_pos hbegins, hopen]
      dsimp only
      rw [hread]
      dsimp only
      rw [hreadMore]
      dsimp only
      rw [hend]
      exact ⟨_, rfl, hk⟩

theorem readMore_render {c : Cursor} {rest : List Char} (ts : List Term) (hnamed : AllWellNamed ts)
    (h : c.rest = renderMore ts ++ rest) (hstops : Stops isNameSymbol rest)
    (hend : rest.head? ≠ some ',') : ∃ e : c.NotLonger, readMore c = .ok (ts, e) ∧ e.1.rest = rest := by
  cases ts with
  | nil =>
    refine ⟨.here, ?_, h⟩
    rw [readMore, eat?_eq_none (by rw [h]; exact hend)]
  | cons t ts =>
    simp only [renderMore, List.append_assoc, List.cons_append] at h
    obtain ⟨d, heat, hd⟩ := eat?_of_rest h
    obtain ⟨e, hread, he⟩ := read_render t hnamed.1 hd (stops_renderMore ts hstops)
    have he' : (d.andThen e.weaken).1.rest = _ := he
    obtain ⟨f, hmore, hf⟩ := readMore_render ts hnamed.2 he' hstops hend
    rw [readMore, heat]
    dsimp only
    rw [hread]
    dsimp only
    rw [hmore]
    exact ⟨_, rfl, hf⟩

end

theorem isNameWith_of_span {first : Char → Bool} (hfirst : first s = true)
    (hsymbol : isNameSymbol s = true) (hmore : ∀ symbol ∈ more, isNameSymbol symbol = true) :
    isNameWith first (String.ofList (s :: more)) = true :=
  isNameWith_iff.2 ⟨s, more, rfl, hfirst, List.forall_mem_cons.2 ⟨hsymbol, hmore⟩⟩

theorem app_of_pieces {first : Term} {others : List Term} {all atOpen atFirst atMore atClose : List Char}
    (hname : all = s :: (more ++ atOpen)) (hopen : atOpen = '(' :: atFirst)
    (hfirst : atFirst = first.render ++ atMore) (hmore : atMore = renderMore others ++ atClose)
    (hclose : atClose = ')' :: rest) :
    all = (app (String.ofList (s :: more)) (first :: others)).render ++ rest := by
  subst hname hopen hfirst hmore hclose
  rw [render, renderAll_cons, String.toList_ofList]
  simp only [List.append_assoc, List.cons_append, List.nil_append]

mutual

/-- A term that was read is well named, and its text is what was read. -/
theorem read_spec {c : Cursor} {t : Term} {d : c.Shorter} (h : read c = .ok (t, d)) :
    t.WellNamed ∧ c.rest = t.render ++ d.1.rest := by
  rw [read] at h
  split at h
  · exact absurd h (by simp)
  · rename_i s e hnext
    have hrest := rest_of_next? hnext
    split at h
    · rename_i heq
      subst heq
      cases h
      exact ⟨rfl, hrest⟩
    · split at h
      · exact absurd h (by simp)
      · rename_i hsymbol
        rw [Bool.not_eq_false] at hsymbol
        obtain ⟨hspan, hmore⟩ := rest_of_span e.1 isNameSymbol
        rw [hspan] at hrest
        dsimp only at h
        split at h
        · rename_i hfirst
          cases h
          refine ⟨?_, by rw [render, String.toList_ofList]; exact hrest⟩
          rw [WellNamed, isConstant, isNameWith_of_span hfirst hsymbol hmore, Bool.or_true]
        · split at h
          · rename_i hfirst
            cases h
            exact ⟨isNameWith_of_span hfirst hsymbol hmore, by
              rw [render, String.toList_ofList]; exact hrest⟩
          · split at h
            · rename_i hfirst
              split at h
              · exact absurd h (by simp)
              · rename_i f hopen
                split at h
                · exact absurd h (by simp)
                · rename_i first g hread
                  split at h
                  · exact absurd h (by simp)
                  · rename_i others i hreadMore
                    split at h
                    · exact absurd h (by simp)
                    · rename_i k hend
                      cases h
                      -- what remains behind each piece is the text of the next one
                      obtain ⟨hnamed, hg⟩ := read_spec hread
                      obtain ⟨hnamed', hi⟩ := readMore_spec hreadMore
                      refine ⟨⟨isNameWith_of_span hfirst hsymbol hmore, List.cons_ne_nil _ _, hnamed,
                        hnamed'⟩, ?_⟩
                      exact app_of_pieces hrest (rest_of_expect hopen) hg hi (rest_of_expect hend)
            · exact absurd h (by simp)
termination_by c.rest.length
decreasing_by all_goals exact Cursor.Shorter.length_lt _

theorem readMore_spec {c : Cursor} {ts : List Term} {e : c.NotLonger} (h : readMore c = .ok (ts, e)) :
    AllWellNamed ts ∧ c.rest = renderMore ts ++ e.1.rest := by
  rw [readMore] at h
  split at h
  · cases h
    exact ⟨trivial, rfl⟩
  · rename_i d heat
    split at h
    · exact absurd h (by simp)
    · rename_i first f hread
      dsimp only at h
      split at h
      · exact absurd h (by simp)
      · rename_i others g hreadMore
        cases h
        obtain ⟨hnamed, hf⟩ := read_spec hread
        obtain ⟨hnamed', hg⟩ := readMore_spec hreadMore
        refine ⟨⟨hnamed, hnamed'⟩, ?_⟩
        calc c.rest
          _ = ',' :: (first.render ++ f.1.rest) :=
            (rest_of_eat? heat).trans (congrArg (',' :: ·) hf)
          _ = ',' :: (first.render ++ (renderMore others ++ g.1.rest)) :=
            congrArg (fun rest => ',' :: (_ ++ rest)) hg
          _ = _ := by
            rw [renderMore, List.cons_append, List.append_assoc]
            rfl
termination_by c.rest.length
decreasing_by all_goals exact Cursor.Shorter.length_lt _

end

theorem WellNamed.begins {t : Term} (h : t.WellNamed) : ∃ s tail, t.render = s :: tail ∧ Begins s := by
  cases t with
  | var name =>
    obtain ⟨s, more, rfl, hfirst, -⟩ := isNameWith_iff.1 h
    exact ⟨s, more, String.toList_ofList, Or.inr (Or.inr (Or.inl hfirst))⟩
  | const name =>
    rw [WellNamed, isConstant, Bool.or_eq_true, beq_iff_eq] at h
    rcases h with rfl | h
    · exact ⟨'_', [], rfl, Or.inl rfl⟩
    · obtain ⟨s, more, rfl, hfirst, -⟩ := isNameWith_iff.1 h
      exact ⟨s, more, String.toList_ofList, Or.inr (Or.inl hfirst)⟩
  | app function arguments =>
    obtain ⟨s, more, rfl, hfirst, -⟩ := isNameWith_iff.1 h.1
    exact ⟨s, _, by rw [render, String.toList_ofList]; rfl, Or.inr (Or.inr (Or.inr hfirst))⟩

end Term

/-! ## Formulas -/

namespace Formula

open Term (AllWellNamed Begins renderMore renderAll_cons stops_renderMore)

/-- The names are of the kinds that their places ask for. -/
def WellNamed : Formula → Prop
  | equality left right => left.WellNamed ∧ right.WellNamed
  | relation name arguments => isRelation name = true ∧ AllWellNamed arguments
  | not inner => inner.WellNamed
  | and first second => first.WellNamed ∧ second.WellNamed
  | or first second => first.WellNamed ∧ second.WellNamed
  | implies first second => first.WellNamed ∧ second.WellNamed
  | forAll name body => isVariable name = true ∧ body.WellNamed
  | exist name body => isVariable name = true ∧ body.WellNamed

variable {formula first second body : Formula} {connective : Formula → Formula → Formula}
  {symbol : List Char} {name : String}

def Readable (formula : Formula) : Prop :=
  ∀ (c : Cursor) (rest : List Char), c.rest = formula.render ++ rest → Stops isNameSymbol rest →
    Gives (read c) formula rest

theorem readArguments_render {arguments : List Term} (hnamed : AllWellNamed arguments)
    (h : c.rest = Term.renderAll arguments ++ ')' :: rest) : Gives (readArguments c) arguments rest := by
  have hclose : Stops isNameSymbol (')' :: rest) := stops_cons (by decide)
  cases arguments with
  | nil =>
    obtain ⟨d, heat, hd⟩ := eat?_of_rest h
    exact ⟨d, by rw [readArguments, heat], hd⟩
  | cons t ts =>
    obtain ⟨s, tail, hrender, hbegins⟩ := hnamed.1.begins
    rw [renderAll_cons, List.append_assoc] at h
    have heat : c.eat? ')' = none := by
      refine eat?_eq_none fun heq => ?_
      rw [h, hrender] at heq
      exact hbegins.ne (by decide) (Option.some.inj heq)
    obtain ⟨d, hread, hd⟩ := Term.read_render t hnamed.1 h (stops_renderMore ts hclose)
    obtain ⟨e, hmore, he⟩ := Term.readMore_render ts hnamed.2 hd hclose (by simp)
    have he' : (d.andThen e).1.rest = _ := he
    obtain ⟨f, hend, hf⟩ := expect_of_rest he'
    rw [readArguments, heat]
    dsimp only
    rw [hread]
    dsimp only
    rw [hmore]
    dsimp only
    rw [hend]
    exact ⟨_, rfl, hf⟩

theorem readEquality_render {left right : Term} (hleft : left.WellNamed) (hright : right.WellNamed)
    (h : c.rest = left.render ++ '=' :: (right.render ++ rest)) (hstops : Stops isNameSymbol rest) :
    Gives (readEquality c) (equality left right) rest := by
  obtain ⟨d, hread, hd⟩ := Term.read_render left hleft h (stops_cons (by decide))
  obtain ⟨e, hequal, he⟩ := expect_of_rest hd
  have he' : (d.andThen e.weaken).1.rest = _ := he
  obtain ⟨f, hread', hf⟩ := Term.read_render right hright he' hstops
  rw [readEquality, hread]
  dsimp only
  rw [hequal]
  dsimp only
  rw [hread']
  exact ⟨_, rfl, hf⟩

theorem readable_equality {left right : Term} (hleft : left.WellNamed) (hright : right.WellNamed) :
    (equality left right).Readable := by
  intro c rest h hstops
  obtain ⟨s, tail, hrender, hbegins⟩ := hleft.begins
  rw [render, List.append_assoc, List.cons_append] at h
  have hrest := h
  rw [hrender, List.cons_append] at hrest
  obtain ⟨d, hnext, -⟩ := next?_of_rest hrest
  rw [read, hnext]
  dsimp only
  rw [if_neg (hbegins.ne (by decide)), if_neg (not_or.2 ⟨hbegins.ne (by decide), hbegins.ne (by decide)⟩),
    if_neg hbegins.not_relation, if_neg (hbegins.ne (by decide))]
  exact readEquality_render hleft hright h hstops

theorem readable_relation {arguments : List Term} (hname : isRelation name = true)
    (harguments : AllWellNamed arguments) : (relation name arguments).Readable := by
  intro c rest h _
  obtain ⟨s, more, rfl, hfirst, hall⟩ := isNameWith_iff.1 hname
  rw [render, String.toList_ofList] at h
  simp only [List.append_assoc, List.cons_append, List.nil_append] at h
  obtain ⟨hsymbol, hmore⟩ := List.forall_mem_cons.1 hall
  obtain ⟨d, e, hnext, hspan, he⟩ := name_of_rest h hmore (stops_cons (by decide))
  have he' : (d.andThen e).1.rest = _ := he
  obtain ⟨f, hopen, hf⟩ := expect_of_rest he'
  have hf' : ((d.andThen e).andThen f.weaken).1.rest = _ := hf
  obtain ⟨g, hread, hg⟩ := readArguments_render harguments hf'
  have hne : ∀ symbol, beginsRelation symbol = false → s ≠ symbol := by
    rintro _ hsymbol rfl
    rw [hfirst] at hsymbol
    exact absurd hsymbol (by decide)
  rw [read, hnext]
  dsimp only
  rw [if_neg (hne _ (by decide)), if_neg (not_or.2 ⟨hne _ (by decide), hne _ (by decide)⟩),
    if_pos hfirst, hspan]
  dsimp only
  rw [hopen]
  dsimp only
  rw [hread]
  exact ⟨_, rfl, hg⟩

theorem readable_not (hinner : formula.Readable) : (not formula).Readable := by
  intro c rest h hstops
  obtain ⟨d, hnext, hd⟩ := next?_of_rest h
  obtain ⟨e, hread, he⟩ := hinner d.1 rest hd hstops
  rw [read, hnext]
  dsimp only
  rw [if_pos rfl, hread]
  exact ⟨_, rfl, he⟩

/-- The symbol of a connective is read as the connective. -/
def ReadsAs (symbol : List Char) (connective : Formula → Formula → Formula) : Prop :=
  (∀ rest, Stops isNameSymbol (symbol ++ rest)) ∧
    ∀ (c : Cursor) (rest : List Char), c.rest = symbol ++ rest →
      ∃ d : c.NotLonger, readConnective? c = some (connective, d) ∧ d.1.rest = rest

theorem read_binary (hconnective : ReadsAs symbol connective) (hfirst : first.Readable)
    (hsecond : second.Readable)
    (h : c.rest = '(' :: (first.render ++ (symbol ++ (second.render ++ ')' :: rest)))) :
    Gives (read c) (connective first second) rest := by
  obtain ⟨d, hnext, hd⟩ := next?_of_rest h
  obtain ⟨e, hread, he⟩ := hfirst d.1 _ hd (hconnective.1 _)
  have he' : (d.andThen e.weaken).1.rest = _ := he
  obtain ⟨f, hsymbol, hf⟩ := hconnective.2 _ _ he'
  have hf' : ((d.andThen e.weaken).andThen f).1.rest = _ := hf
  obtain ⟨g, hread', hg⟩ := hsecond _ _ hf' (stops_cons (by decide))
  have hg' : (((d.andThen e.weaken).andThen f).andThen g.weaken).1.rest = _ := hg
  obtain ⟨i, hclose, hi⟩ := expect_of_rest hg'
  rw [read, hnext]
  dsimp only
  rw [if_neg (by decide), if_neg (by decide), if_neg (by decide), if_pos rfl, hread]
  dsimp only
  rw [hsymbol]
  dsimp only
  rw [hread']
  dsimp only
  rw [hclose]
  exact ⟨_, rfl, hi⟩

theorem reads_and : ReadsAs ['&'] and := by
  refine ⟨fun _ => stops_cons (by decide), fun c rest h => ?_⟩
  obtain ⟨d, heat, hd⟩ := eat?_of_rest h
  exact ⟨d.weaken, by rw [readConnective?, heat], hd⟩

theorem reads_or : ReadsAs ['|'] or := by
  refine ⟨fun _ => stops_cons (by decide), fun c rest h => ?_⟩
  obtain ⟨d, heat, hd⟩ := eat?_of_rest h
  have hand : c.eat? '&' = none := eat?_eq_none (by rw [h]; simp)
  exact ⟨d.weaken, by rw [readConnective?, hand, heat], hd⟩

theorem reads_implies : ReadsAs ['-', '>'] implies := by
  refine ⟨fun _ => stops_cons (by decide), fun c rest h => ?_⟩
  obtain ⟨d, heat, hd⟩ := eatAll?_of_rest h
  have hand : c.eat? '&' = none := eat?_eq_none (by rw [h]; simp)
  have hor : c.eat? '|' = none := eat?_eq_none (by rw [h]; simp)
  exact ⟨d, by rw [readConnective?, hand, hor, heat]; rfl, hd⟩

theorem read_quantified (hletter : s = 'A' ∨ s = 'E') (hname : isVariable name = true)
    (hbody : body.Readable) (h : c.rest = s :: (name.toList ++ '[' :: (body.render ++ ']' :: rest))) :
    Gives (read c) (if s = 'A' then forAll name body else exist name body) rest := by
  obtain ⟨first, more, hsplit, hfirst, hall⟩ := isNameWith_iff.1 hname
  have hrun : ∀ symbol ∈ name.toList, isNameSymbol symbol = true := by
    rw [hsplit, String.toList_ofList]
    exact hall
  obtain ⟨d, e, hnext, hspan, he⟩ := name_of_rest h hrun (stops_cons (by decide))
  have he' : (d.andThen e).1.rest = _ := he
  obtain ⟨f, hopen, hf⟩ := expect_of_rest he'
  have hf' : ((d.andThen e).andThen f.weaken).1.rest = _ := hf
  obtain ⟨g, hread, hg⟩ := hbody _ _ hf' (stops_cons (by decide))
  have hg' : (((d.andThen e).andThen f.weaken).andThen g.weaken).1.rest = _ := hg
  obtain ⟨i, hclose, hi⟩ := expect_of_rest hg'
  have hnot : s ≠ '~' := by
    rcases hletter with rfl | rfl <;> decide
  rw [read, hnext]
  dsimp only
  rw [if_neg hnot, if_pos hletter, hspan]
  dsimp only
  rw [String.ofList_toList, if_neg (by rw [hname]; decide), hopen]
  dsimp only
  rw [hread]
  dsimp only
  rw [hclose]
  exact ⟨_, rfl, hi⟩

/-- The text of a well-named formula is read as the formula. -/
theorem read_render (formula : Formula) (h : formula.WellNamed) : formula.Readable := by
  induction formula with
  | equality left right => exact readable_equality h.1 h.2
  | relation name arguments => exact readable_relation h.1 h.2
  | not inner ih => exact readable_not (ih h)
  | and first second ihFirst ihSecond =>
    intro c rest hrest _
    refine read_binary reads_and (ihFirst h.1) (ihSecond h.2) (hrest.trans ?_)
    simp [render]
  | or first second ihFirst ihSecond =>
    intro c rest hrest _
    refine read_binary reads_or (ihFirst h.1) (ihSecond h.2) (hrest.trans ?_)
    simp [render]
  | implies first second ihFirst ihSecond =>
    intro c rest hrest _
    refine read_binary reads_implies (ihFirst h.1) (ihSecond h.2) (hrest.trans ?_)
    simp [render]
  | forAll name body ih =>
    intro c rest hrest _
    refine read_quantified (Or.inl rfl) h.1 (ih h.2) (hrest.trans ?_)
    simp [render]
  | exist name body ih =>
    intro c rest hrest _
    refine read_quantified (Or.inr rfl) h.1 (ih h.2) (hrest.trans ?_)
    simp [render]

theorem eq_of_text_eq {formula formula' : Formula} (h : formula.WellNamed) (h' : formula'.WellNamed)
    (htext : formula.text = formula'.text) : formula = formula' := by
  have hrender : formula.render = formula'.render := String.ofList_injective htext
  obtain ⟨d, hread, -⟩ := read_render formula h ⟨0, formula.render⟩ [] (List.append_nil _).symm
    stops_nil
  obtain ⟨d', hread', -⟩ := read_render formula' h' ⟨0, formula.render⟩ []
    (by rw [hrender, List.append_nil]) stops_nil
  rw [hread] at hread'
  cases hread'
  rfl

/-! ## What is read -/

theorem readArguments_spec {arguments : List Term} {d : c.Shorter}
    (h : readArguments c = .ok (arguments, d)) :
    AllWellNamed arguments ∧ c.rest = Term.renderAll arguments ++ ')' :: d.1.rest := by
  unfold readArguments at h
  split at h
  · rename_i e heat
    cases h
    exact ⟨trivial, rest_of_eat? heat⟩
  · split at h
    · exact absurd h (by simp)
    · rename_i first e hread
      split at h
      · exact absurd h (by simp)
      · rename_i others f hmore
        dsimp only at h
        split at h
        · exact absurd h (by simp)
        · rename_i g hclose
          cases h
          obtain ⟨hnamed, he⟩ := Term.read_spec hread
          obtain ⟨hnamed', hf⟩ := Term.readMore_spec hmore
          refine ⟨⟨hnamed, hnamed'⟩, ?_⟩
          -- the closing parenthesis was read behind the last argument
          calc c.rest
            _ = first.render ++ (renderMore others ++ f.1.rest) := he.trans (congrArg (_ ++ ·) hf)
            _ = first.render ++ (renderMore others ++ ')' :: g.1.rest) :=
              congrArg (fun rest => _ ++ (_ ++ rest)) (rest_of_expect hclose)
            _ = _ := by
              rw [renderAll_cons, List.append_assoc]
              rfl

theorem readEquality_spec {d : c.Shorter} (h : readEquality c = .ok (formula, d)) :
    formula.WellNamed ∧ c.rest = formula.render ++ d.1.rest := by
  unfold readEquality at h
  split at h
  · exact absurd h (by simp)
  · rename_i left e hread
    split at h
    · exact absurd h (by simp)
    · rename_i f hequal
      dsimp only at h
      split at h
      · exact absurd h (by simp)
      · rename_i right g hread'
        cases h
        obtain ⟨hleft, he⟩ := Term.read_spec hread
        obtain ⟨hright, hg⟩ := Term.read_spec hread'
        refine ⟨⟨hleft, hright⟩, ?_⟩
        calc c.rest
          _ = left.render ++ '=' :: f.1.rest := he.trans (congrArg (_ ++ ·) (rest_of_expect hequal))
          _ = left.render ++ '=' :: (right.render ++ g.1.rest) :=
            congrArg (fun rest => _ ++ '=' :: rest) hg
          _ = _ := by
            rw [render, List.append_assoc]
            rfl

structure Joins (symbol : List Char) (connective : Formula → Formula → Formula) : Prop where
  render : ∀ first second, (connective first second).render =
    '(' :: (first.render ++ (symbol ++ (second.render ++ [')'])))
  wellNamed : ∀ first second, first.WellNamed → second.WellNamed → (connective first second).WellNamed

theorem readConnective?_spec {d : c.NotLonger} (h : readConnective? c = some (connective, d)) :
    ∃ symbol, Joins symbol connective ∧ c.rest = symbol ++ d.1.rest := by
  unfold readConnective? at h
  split at h
  · rename_i e heat
    cases h
    exact ⟨['&'], ⟨fun _ _ => rfl, fun _ _ => And.intro⟩, rest_of_eat? heat⟩
  · split at h
    · rename_i e heat
      cases h
      exact ⟨['|'], ⟨fun _ _ => rfl, fun _ _ => And.intro⟩, rest_of_eat? heat⟩
    · obtain ⟨e, heat, heq⟩ := Option.map_eq_some_iff.1 h
      cases heq
      exact ⟨['-', '>'], ⟨fun _ _ => rfl, fun _ _ => And.intro⟩, rest_of_eatAll? heat⟩

theorem wellNamed_quantified (hletter : s = 'A' ∨ s = 'E') (hname : isVariable name = true)
    (hbody : body.WellNamed) :
    (if s = 'A' then forAll name body else exist name body).WellNamed := by
  rcases hletter with rfl | rfl
  · exact ⟨hname, hbody⟩
  · exact ⟨hname, hbody⟩

theorem quantified_of_pieces {run all atOpen atBody atClose : List Char} (hletter : s = 'A' ∨ s = 'E')
    (hname : all = s :: (run ++ atOpen)) (hopen : atOpen = '[' :: atBody)
    (hbody : atBody = body.render ++ atClose) (hclose : atClose = ']' :: rest) :
    all = (if s = 'A' then forAll (String.ofList run) body
      else exist (String.ofList run) body).render ++ rest := by
  subst hname hopen hbody hclose
  rcases hletter with rfl | rfl
  · rw [if_pos rfl, render, String.toList_ofList]
    simp only [List.append_assoc, List.cons_append, List.nil_append]
  · rw [if_neg (by decide), render, String.toList_ofList]
    simp only [List.append_assoc, List.cons_append, List.nil_append]

theorem relation_of_pieces {arguments : List Term} {all atOpen atArguments : List Char}
    (hname : all = s :: (more ++ atOpen)) (hopen : atOpen = '(' :: atArguments)
    (harguments : atArguments = Term.renderAll arguments ++ ')' :: rest) :
    all = (relation (String.ofList (s :: more)) arguments).render ++ rest := by
  subst hname hopen harguments
  rw [render, String.toList_ofList]
  simp only [List.append_assoc, List.cons_append, List.nil_append]

theorem Joins.of_pieces (h : Joins symbol connective)
    {all atFirst atSymbol atSecond atClose : List Char} (hopen : all = '(' :: atFirst)
    (hfirst : atFirst = first.render ++ atSymbol) (hsymbol : atSymbol = symbol ++ atSecond)
    (hsecond : atSecond = second.render ++ atClose) (hclose : atClose = ')' :: rest) :
    all = (connective first second).render ++ rest := by
  subst hopen hfirst hsymbol hsecond hclose
  rw [h.render]
  simp only [List.append_assoc, List.cons_append, List.nil_append]

/-- A formula that was read is well named, and its text is what was read. -/
theorem read_spec {c : Cursor} {formula : Formula} {d : c.Shorter} (h : read c = .ok (formula, d)) :
    formula.WellNamed ∧ c.rest = formula.render ++ d.1.rest := by
  rw [read] at h
  split at h
  · exact absurd h (by simp)
  · rename_i s e hnext
    have hrest := rest_of_next? hnext
    split at h
    · -- a negation
      rename_i heq
      subst heq
      split at h
      · exact absurd h (by simp)
      · rename_i inner f hread
        cases h
        obtain ⟨hnamed, hf⟩ := read_spec hread
        exact ⟨hnamed, hrest.trans (congrArg ('~' :: ·) hf)⟩
    · split at h
      · -- a quantified formula
        rename_i hletter
        dsimp only at h
        obtain ⟨hspan, -⟩ := rest_of_span e.1 isNameSymbol
        split at h
        · exact absurd h (by simp)
        · rename_i hname
          rw [Bool.not_eq_false] at hname
          split at h
          · exact absurd h (by simp)
          · rename_i f hopen
            split at h
            · exact absurd h (by simp)
            · rename_i body g hread
              split at h
              · exact absurd h (by simp)
              · rename_i i hclose
                cases h
                obtain ⟨hnamed, hg⟩ := read_spec hread
                refine ⟨wellNamed_quantified hletter hname hnamed, ?_⟩
                rw [hspan] at hrest
                exact quantified_of_pieces hletter hrest (rest_of_expect hopen) hg
                  (rest_of_expect hclose)
      · split at h
        · -- a relation
          rename_i hfirst
          dsimp only at h
          obtain ⟨hspan, hmore⟩ := rest_of_span e.1 isNameSymbol
          split at h
          · exact absurd h (by simp)
          · rename_i f hopen
            split at h
            · exact absurd h (by simp)
            · rename_i arguments g hread
              cases h
              obtain ⟨hnamed, hg⟩ := readArguments_spec hread
              refine ⟨⟨Term.isNameWith_of_span hfirst (isNameSymbol_of_beginsRelation hfirst) hmore,
                hnamed⟩, ?_⟩
              rw [hspan] at hrest
              exact relation_of_pieces hrest (rest_of_expect hopen) hg
        · split at h
          · -- two formulas joined
            rename_i heq
            subst heq
            split at h
            · exact absurd h (by simp)
            · rename_i first f hread
              dsimp only at h
              split at h
              · exact absurd h (by simp)
              · rename_i connective g hconnective
                split at h
                · exact absurd h (by simp)
                · rename_i second i hread'
                  split at h
                  · exact absurd h (by simp)
                  · rename_i k hclose
                    cases h
                    obtain ⟨hnamed, hf⟩ := read_spec hread
                    obtain ⟨symbol, hjoins, hg⟩ := readConnective?_spec hconnective
                    obtain ⟨hnamed', hi⟩ := read_spec hread'
                    refine ⟨hjoins.wellNamed _ _ hnamed hnamed', ?_⟩
                    exact hjoins.of_pieces hrest hf hg hi (rest_of_expect hclose)
          · exact readEquality_spec h
termination_by c.rest.length
decreasing_by all_goals exact Cursor.Shorter.length_lt _

/-- A formula written in a text is well named, and its text is the text without blanks. -/
theorem parse_spec {text : String} (h : parse text = .ok formula) :
    formula.WellNamed ∧ formula.render = text.toList.filter (!isBlank ·) := by
  obtain ⟨d, hread, hrest⟩ := readAll_eq_ok_iff.1 h
  obtain ⟨hnamed, hwrite⟩ := read_spec hread
  rw [hrest, List.append_nil] at hwrite
  exact ⟨hnamed, hwrite.symm⟩

theorem WellNamed.outermost (h : formula.WellNamed) : ∀ part ∈ formula.outermost, part.WellNamed := by
  induction formula with
  | not inner ih => exact ih h
  | and first second ihFirst ihSecond | or first second ihFirst ihSecond
  | implies first second ihFirst ihSecond =>
    exact List.forall_mem_append.2 ⟨ihFirst h.1, ihSecond h.2⟩
  | equality | relation | forAll | exist => exact List.forall_mem_singleton.2 h

end Formula

end Satisfiability.FirstOrder
