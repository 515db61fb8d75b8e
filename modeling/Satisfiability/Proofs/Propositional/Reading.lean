import Satisfiability.Propositional.Parser
import Satisfiability.Proofs.Text.Cursor

/-!
# Propositional texts, there and back

No symbol of a connective begins with another one's symbol (`Connective.symbol_inj`), so wherever a
symbol was written the reader finds its connective and no other. A variable takes all digits that
come next, and what comes behind a variable in a formula is never a digit. So reading and writing
undo each other (`propositional_round_trip`).
-/

namespace Satisfiability.Propositional

open Satisfiability.Text Cursor

variable {c : Cursor} {s : Char} {more rest : List Char} {name : String} {connective : Connective}

/-! ## Names -/

theorem isVariable_iff : isVariable name = true ↔ ∃ s digits, name = String.ofList (s :: digits) ∧
    ('p' ≤ s ∧ s ≤ 'z') ∧ ∀ digit ∈ digits, digit.isDigit = true := by
  unfold isVariable
  constructor
  · intro h
    split at h
    · exact absurd h (by simp)
    · rename_i s digits heq
      rw [Bool.and_eq_true, Bool.and_eq_true, decide_eq_true_eq, decide_eq_true_eq,
        List.all_eq_true] at h
      exact ⟨s, digits, by rw [← heq, String.ofList_toList], h⟩
  · rintro ⟨s, digits, rfl, h⟩
    rw [String.toList_ofList]
    dsimp only
    rw [Bool.and_eq_true, Bool.and_eq_true, decide_eq_true_eq, decide_eq_true_eq, List.all_eq_true]
    exact h

theorem visible_variable (h : isVariable name = true) : Visible name.toList := by
  obtain ⟨s, digits, rfl, ⟨hfirst, hlast⟩, hdigits⟩ := isVariable_iff.1 h
  rw [String.toList_ofList]
  refine visible_cons (isBlank_of_le (Char.le_trans (by decide) hfirst) hlast) fun digit hdigit =>
    isBlank_of_isAlphanum ?_
  rw [Char.isAlphanum, hdigits digit hdigit, Bool.or_true]

/-! ## Connectives -/

namespace Connective

theorem visible_symbol (connective : Connective) : Visible connective.symbol := by
  cases connective <;> decide

theorem stops_symbol (connective : Connective) (rest : List Char) :
    Stops Char.isDigit (connective.symbol ++ rest) := by
  cases connective <;> exact stops_cons (by decide)

theorem symbol_inj {first second : Connective} {rest rest' : List Char}
    (h : first.symbol ++ rest = second.symbol ++ rest') : first = second ∧ rest = rest' := by
  cases first <;> cases second <;> simp_all [symbol]

theorem read?_spec {d : c.NotLonger} (h : read? c = some (connective, d)) :
    c.rest = connective.symbol ++ d.1.rest := by
  obtain ⟨tried, -, htried⟩ := List.exists_of_findSome?_eq_some h
  obtain ⟨e, heat, heq⟩ := Option.map_eq_some_iff.1 htried
  cases heq
  exact rest_of_eatAll? heat

theorem read?_of_rest (h : c.rest = connective.symbol ++ rest) :
    ∃ d : c.NotLonger, read? c = some (connective, d) ∧ d.1.rest = rest := by
  cases hread : read? c with
  | none =>
    have hmem : connective ∈ readingOrder := by cases connective <;> decide
    obtain ⟨d, heat, -⟩ := eatAll?_of_rest h
    have hfail := List.findSome?_eq_none_iff.1 hread connective hmem
    rw [heat] at hfail
    exact absurd hfail (by simp)
  | some found =>
    obtain ⟨rfl, hrest⟩ := symbol_inj (h.symm.trans (read?_spec hread))
    exact ⟨found.2, rfl, hrest.symm⟩

end Connective

/-! ## Formulas -/

namespace Formula

variable {formula first second : Formula}

def WellNamed (formula : Formula) : Prop := ∀ name ∈ formula.variableNames, isVariable name = true

theorem wellNamed_iff : formula.WellNamed ↔ ∀ name ∈ formula.occurrences, isVariable name = true := by
  simp only [WellNamed, variableNames, mem_ascending]

theorem wellNamed_truth (value : Bool) : (truth value).WellNamed :=
  wellNamed_iff.2 (List.forall_mem_nil _)

theorem wellNamed_var : (var name).WellNamed ↔ isVariable name = true :=
  wellNamed_iff.trans List.forall_mem_singleton

theorem wellNamed_not : (not formula).WellNamed ↔ formula.WellNamed :=
  wellNamed_iff.trans wellNamed_iff.symm

theorem wellNamed_binary :
    (binary connective first second).WellNamed ↔ first.WellNamed ∧ second.WellNamed := by
  rw [wellNamed_iff, occurrences, List.forall_mem_append, ← wellNamed_iff, ← wellNamed_iff]

theorem visible_render (formula : Formula) (h : formula.WellNamed) : Visible formula.render := by
  induction formula with
  | truth value => cases value <;> decide
  | var name => exact visible_variable (wellNamed_var.1 h)
  | not inner ih => exact visible_cons (by decide) (ih (wellNamed_not.1 h))
  | binary connective first second ihFirst ihSecond =>
    obtain ⟨hfirst, hsecond⟩ := wellNamed_binary.1 h
    have hclosed := (ihSecond hsecond).before (s := ')') (by decide) visible_nil
    exact visible_cons (by decide)
      ((ihFirst hfirst).append (connective.visible_symbol.append hclosed))

/-! ### Reading what was written -/

def Readable (formula : Formula) : Prop :=
  ∀ (c : Cursor) (rest : List Char), c.rest = formula.render ++ rest → Stops Char.isDigit rest →
    Gives (read c) formula rest

theorem readable_truth (value : Bool) : (truth value).Readable := by
  intro c rest h _
  cases value with
  | true =>
    obtain ⟨d, hnext, hd⟩ := next?_of_rest h
    rw [read, hnext]
    exact ⟨d, rfl, hd⟩
  | false =>
    obtain ⟨d, hnext, hd⟩ := next?_of_rest h
    rw [read, hnext]
    exact ⟨d, rfl, hd⟩

theorem readable_var (hname : isVariable name = true) : (var name).Readable := by
  intro c rest h hstops
  obtain ⟨s, digits, rfl, hletter, hdigits⟩ := isVariable_iff.1 hname
  rw [render, String.toList_ofList] at h
  obtain ⟨d, hnext, hd⟩ := next?_of_rest h
  obtain ⟨e, hspan, he⟩ := span_of_rest hd hdigits hstops
  have hne : ∀ symbol : Char, ¬ ('p' ≤ symbol ∧ symbol ≤ 'z') → s ≠ symbol := by
    rintro _ hnot rfl
    exact hnot hletter
  rw [read, hnext]
  dsimp only
  rw [if_neg (hne _ (by decide)), if_neg (hne _ (by decide)), if_neg (hne _ (by decide)),
    if_pos hletter, hspan]
  exact ⟨_, rfl, he⟩

theorem readable_not (hinner : formula.Readable) : (not formula).Readable := by
  intro c rest h hstops
  obtain ⟨d, hnext, hd⟩ := next?_of_rest h
  obtain ⟨e, hread, he⟩ := hinner d.1 rest hd hstops
  rw [read, hnext]
  dsimp only
  rw [if_neg (by decide), if_neg (by decide), if_pos rfl, hread]
  exact ⟨_, rfl, he⟩

theorem readable_binary (hfirst : first.Readable) (hsecond : second.Readable) :
    (binary connective first second).Readable := by
  intro c rest h _
  simp only [render, List.cons_append, List.append_assoc, List.nil_append] at h
  obtain ⟨d, hnext, hd⟩ := next?_of_rest h
  obtain ⟨e, hread, he⟩ := hfirst d.1 _ hd (connective.stops_symbol _)
  -- each cursor is given as the reader writes it
  have he' : (d.andThen e.weaken).1.rest = _ := he
  obtain ⟨f, hsymbol, hf⟩ := Connective.read?_of_rest he'
  have hf' : ((d.andThen e.weaken).andThen f).1.rest = _ := hf
  obtain ⟨g, hread', hg⟩ := hsecond _ _ hf' (stops_cons (by decide))
  have hg' : (((d.andThen e.weaken).andThen f).andThen g.weaken).1.rest = _ := hg
  obtain ⟨i, hclose, hi⟩ := expect_of_rest hg'
  rw [read, hnext]
  dsimp only
  rw [if_neg (by decide), if_neg (by decide), if_neg (by decide), if_neg (by decide), if_pos rfl,
    hread]
  dsimp only
  rw [hsymbol]
  dsimp only
  rw [hread']
  dsimp only
  rw [hclose]
  exact ⟨_, rfl, hi⟩

theorem read_render (formula : Formula) (h : formula.WellNamed) : formula.Readable := by
  induction formula with
  | truth value => exact readable_truth value
  | var name => exact readable_var (wellNamed_var.1 h)
  | not inner ih => exact readable_not (ih (wellNamed_not.1 h))
  | binary connective first second ihFirst ihSecond =>
    obtain ⟨hfirst, hsecond⟩ := wellNamed_binary.1 h
    exact readable_binary (ihFirst hfirst) (ihSecond hsecond)

/-! ### What is read -/

theorem binary_of_pieces {all atFirst atSymbol atSecond atClose : List Char}
    (hopen : all = '(' :: atFirst) (hfirst : atFirst = first.render ++ atSymbol)
    (hsymbol : atSymbol = connective.symbol ++ atSecond)
    (hsecond : atSecond = second.render ++ atClose) (hclose : atClose = ')' :: rest) :
    all = (binary connective first second).render ++ rest := by
  subst hopen hfirst hsymbol hsecond hclose
  simp only [render, List.append_assoc, List.cons_append, List.nil_append]

theorem read_spec {c : Cursor} {formula : Formula} {d : c.Shorter} (h : read c = .ok (formula, d)) :
    formula.WellNamed ∧ c.rest = formula.render ++ d.1.rest := by
  rw [read] at h
  split at h
  · exact absurd h (by simp)
  · rename_i s e hnext
    have hrest := rest_of_next? hnext
    split at h
    · rename_i heq
      subst heq
      cases h
      exact ⟨wellNamed_truth true, hrest⟩
    · split at h
      · rename_i heq
        subst heq
        cases h
        exact ⟨wellNamed_truth false, hrest⟩
      · split at h
        · -- a negation
          rename_i heq
          subst heq
          split at h
          · exact absurd h (by simp)
          · rename_i inner f hread
            cases h
            obtain ⟨hnamed, hf⟩ := read_spec hread
            exact ⟨wellNamed_not.2 hnamed, hrest.trans (congrArg ('~' :: ·) hf)⟩
        · split at h
          · -- a variable
            rename_i hletter
            cases h
            obtain ⟨hspan, hdigits⟩ := rest_of_span e.1 Char.isDigit
            refine ⟨wellNamed_var.2 (isVariable_iff.2 ⟨s, _, rfl, hletter, hdigits⟩), ?_⟩
            rw [render, String.toList_ofList]
            exact hrest.trans (congrArg (s :: ·) hspan)
          · split at h
            · -- two formulas joined
              rename_i heq
              subst heq
              split at h
              · exact absurd h (by simp)
              · rename_i first f hread
                dsimp only at h
                split at h
                · exact absurd h (by simp)
                · rename_i connective g hconnective
                  split at h
                  · exact absurd h (by simp)
                  · rename_i second i hread'
                    split at h
                    · exact absurd h (by simp)
                    · rename_i k hclose
                      cases h
                      obtain ⟨hnamed, hf⟩ := read_spec hread
                      obtain ⟨hnamed', hi⟩ := read_spec hread'
                      exact ⟨wellNamed_binary.2 ⟨hnamed, hnamed'⟩,
                        binary_of_pieces hrest hf (Connective.read?_spec hconnective) hi
                          (rest_of_expect hclose)⟩
            · exact absurd h (by simp)
termination_by c.rest.length
decreasing_by all_goals exact Cursor.Shorter.length_lt _

theorem inverts_render : Inverts read render WellNamed where
  reads formula h _ hc := read_render formula h _ [] (hc.trans (List.append_nil _).symm) stops_nil
  writes _ _ _ h := read_spec h
  visible := visible_render

/-- A formula is read from its text if and only if its variables have names of variables, and a text
is read as the one such formula that is written so, up to blanks. -/
theorem propositional_round_trip :
    (∀ formula : Formula, parse formula.text = .ok formula ↔ formula.WellNamed) ∧
    ∀ (text : String) (formula : Formula), parse text = .ok formula ↔
      formula.WellNamed ∧ formula.text = withoutBlanks text :=
  ⟨fun _ => inverts_render.readAll_write, fun _ _ => inverts_render.readAll_eq_ok_iff⟩

end Formula

end Satisfiability.Propositional
