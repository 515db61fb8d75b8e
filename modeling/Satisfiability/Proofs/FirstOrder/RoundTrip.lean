import Satisfiability.Proofs.FirstOrder.Reading

/-!
# First-order texts, there and back

What is written of a well-named term or formula has no blanks, so it is read as it stands. Reading
and writing then undo each other (`first_order_round_trip`): a text is read as a term or formula if
that is well named and its text is the given one without blanks, and in no other case.
-/

namespace Satisfiability.FirstOrder

open Satisfiability.Text Cursor

section visible

variable {name : String} {first : Char → Bool}

theorem visible_name (h : isNameWith first name = true) : Visible name.toList := by
  obtain ⟨s, more, rfl, -, hall⟩ := isNameWith_iff.1 h
  rw [String.toList_ofList]
  exact fun symbol hsymbol => isBlank_of_isAlphanum (hall symbol hsymbol)

theorem visible_constant (h : isConstant name = true) : Visible name.toList := by
  rw [isConstant, Bool.or_eq_true, beq_iff_eq] at h
  rcases h with rfl | h
  · exact visible_cons (by decide) visible_nil
  · exact visible_name h

end visible

/-! ## Terms -/

namespace Term

mutual

theorem visible_render (t : Term) (h : t.WellNamed) : Visible t.render := by
  cases t with
  | var name => exact visible_name h
  | const name => exact visible_constant h
  | app function arguments =>
    have hclosed : Visible (renderAll arguments ++ [')']) :=
      (visible_renderAll arguments h.2.2).before (by decide) visible_nil
    exact (visible_name h.1).before (by decide) hclosed

theorem visible_renderAll (ts : List Term) (h : AllWellNamed ts) : Visible (renderAll ts) := by
  match ts with
  | [] => exact visible_nil
  | [t] => exact visible_render t h.1
  | t :: next :: others =>
    exact (visible_render t h.1).before (by decide) (visible_renderAll (next :: others) h.2)

end

theorem inverts_render : Inverts read render WellNamed where
  reads t h _ hc := read_render t h (hc.trans (List.append_nil _).symm) stops_nil
  writes _ _ _ h := read_spec h
  visible := visible_render

end Term

/-! ## Formulas -/

namespace Formula

theorem visible_joined {first second symbol : List Char} (hfirst : Visible first)
    (hsymbol : Visible symbol) (hsecond : Visible second) :
    Visible ('(' :: (first ++ (symbol ++ (second ++ [')'])))) :=
  visible_cons (by decide) (hfirst.append (hsymbol.append (hsecond.before (by decide) visible_nil)))

theorem visible_quantified {name : String} {body : List Char} {letter : Char}
    (hletter : isBlank letter = false) (hname : isVariable name = true) (hbody : Visible body) :
    Visible (letter :: (name.toList ++ '[' :: (body ++ [']']))) :=
  visible_cons hletter
    ((visible_name hname).before (by decide) (hbody.before (by decide) visible_nil))

theorem visible_render (formula : Formula) (h : formula.WellNamed) : Visible formula.render := by
  induction formula with
  | equality left right =>
    exact (Term.visible_render left h.1).before (by decide) (Term.visible_render right h.2)
  | relation name arguments =>
    have hclosed : Visible (Term.renderAll arguments ++ [')']) :=
      (Term.visible_renderAll arguments h.2).before (by decide) visible_nil
    exact (visible_name h.1).before (by decide) hclosed
  | not inner ih => exact visible_cons (by decide) (ih h)
  | and first second ihFirst ihSecond =>
    exact visible_joined (ihFirst h.1) (visible_cons (by decide) visible_nil) (ihSecond h.2)
  | or first second ihFirst ihSecond =>
    exact visible_joined (ihFirst h.1) (visible_cons (by decide) visible_nil) (ihSecond h.2)
  | implies first second ihFirst ihSecond =>
    have hsymbol : Visible ['-', '>'] :=
      visible_cons (by decide) (visible_cons (by decide) visible_nil)
    exact visible_joined (ihFirst h.1) hsymbol (ihSecond h.2)
  | forAll name body ih => exact visible_quantified (by decide) h.1 (ih h.2)
  | exist name body ih => exact visible_quantified (by decide) h.1 (ih h.2)

theorem inverts_render : Inverts read render WellNamed where
  reads formula h _ hc := read_render formula h _ [] (hc.trans (List.append_nil _).symm) stops_nil
  writes _ _ _ h := read_spec h
  visible := visible_render

end Formula

/-- Terms and formulas are read from their texts if and only if they are well named, and a text is
read as the one well-named term or formula that is written so, up to blanks. -/
theorem first_order_round_trip :
    (∀ t : Term, Term.parse t.text = .ok t ↔ t.WellNamed) ∧
    (∀ formula : Formula, Formula.parse formula.text = .ok formula ↔ formula.WellNamed) ∧
    (∀ (text : String) (t : Term), Term.parse text = .ok t ↔
      t.WellNamed ∧ t.text = withoutBlanks text) ∧
    ∀ (text : String) (formula : Formula), Formula.parse text = .ok formula ↔
      formula.WellNamed ∧ formula.text = withoutBlanks text :=
  ⟨fun _ => Term.inverts_render.readAll_write, fun _ => Formula.inverts_render.readAll_write,
    fun _ _ => Term.inverts_render.readAll_eq_ok_iff,
    fun _ _ => Formula.inverts_render.readAll_eq_ok_iff⟩

end Satisfiability.FirstOrder
