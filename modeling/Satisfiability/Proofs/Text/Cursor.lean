import Satisfiability.Text.Cursor

/-!
# Cursors and what remains

What a step of a cursor reads is what it takes from the symbols that remain, in both directions:
where the symbols are there the step succeeds, and where it succeeds they were there. Positions only
matter for faults. So if a reader gives back what a writer writes, and reads nothing else, then a
text is read as the value whose writing is the text without its blanks
(`Inverts.readAll_eq_ok_iff`).
-/

namespace Satisfiability.Text

def withoutBlanks (text : String) : String := String.ofList (text.toList.filter (!isBlank ·))

theorem isBlank_of_le {s : Char} (hfirst : '0' ≤ s) (hlast : s ≤ 'z') : isBlank s = false := by
  rw [Char.le_def, UInt32.le_iff_toNat_le] at hfirst hlast
  change 48 ≤ s.toNat at hfirst
  change s.toNat ≤ 122 at hlast
  rw [isBlank, List.any_eq_false]
  intro run hrun
  have houtside : run.2 < 48 ∨ 122 < run.1 := by
    revert run
    decide
  rw [Bool.and_eq_true, decide_eq_true_eq, decide_eq_true_eq]
  omega

theorem isBlank_of_isAlphanum {s : Char} (h : s.isAlphanum = true) : isBlank s = false := by
  rcases Bool.or_eq_true_iff.1 h with hletter | hdigit
  · rcases Bool.or_eq_true_iff.1 hletter with hcapital | hsmall
    · obtain ⟨hfirst, hlast⟩ : 'A' ≤ s ∧ s ≤ 'Z' := of_decide_eq_true hcapital
      exact isBlank_of_le (Char.le_trans (by decide) hfirst) (Char.le_trans hlast (by decide))
    · obtain ⟨hfirst, hlast⟩ := Bool.and_eq_true_iff.1 hsmall
      exact isBlank_of_le (Char.le_trans (by decide) (of_decide_eq_true hfirst)) (of_decide_eq_true hlast)
  · obtain ⟨hfirst, hlast⟩ := Bool.and_eq_true_iff.1 hdigit
    exact isBlank_of_le (of_decide_eq_true hfirst) (Char.le_trans (of_decide_eq_true hlast) (by decide))

def Visible (symbols : List Char) : Prop := ∀ s ∈ symbols, isBlank s = false

instance : DecidablePred Visible := List.decidableBAll (isBlank · = false)

section visible

variable {s : Char} {symbols more : List Char}

theorem visible_nil : Visible [] := List.forall_mem_nil _

theorem visible_cons (hs : isBlank s = false) (h : Visible symbols) : Visible (s :: symbols) :=
  List.forall_mem_cons.2 ⟨hs, h⟩

theorem Visible.append (h : Visible symbols) (hmore : Visible more) : Visible (symbols ++ more) :=
  List.forall_mem_append.2 ⟨h, hmore⟩

theorem Visible.before (h : Visible symbols) (hs : isBlank s = false) (hmore : Visible more) :
    Visible (symbols ++ s :: more) :=
  h.append (visible_cons hs hmore)

theorem Visible.filter_eq (h : Visible symbols) : symbols.filter (!isBlank ·) = symbols :=
  List.filter_eq_self.2 fun s hs => by rw [h s hs, Bool.not_false]

end visible

namespace Cursor

variable {c : Cursor} {s symbol : Char} {symbols run rest : List Char} {p : Char → Bool}

/-- No run of symbols that satisfy `p` goes on with what remains. -/
def Stops (p : Char → Bool) (rest : List Char) : Prop := ∀ s, rest.head? = some s → p s = false

theorem stops_nil : Stops p [] := fun _ hnone => absurd hnone (by simp)

theorem stops_cons (h : p s = false) : Stops p (s :: rest) := by
  intro symbol hsymbol
  cases hsymbol
  exact h

def Gives {α : Type} {c : Cursor} (result : Except ReadingFault (α × c.Shorter)) (a : α)
    (rest : List Char) : Prop :=
  ∃ d : c.Shorter, result = .ok (a, d) ∧ d.1.rest = rest

/-! ## Steps that succeed -/

theorem next?_of_rest (h : c.rest = s :: rest) :
    ∃ d : c.Shorter, c.next? = some (s, d) ∧ d.1.rest = rest := by
  obtain ⟨position, _⟩ := c
  subst h
  exact ⟨_, rfl, rfl⟩

theorem eat?_of_rest (h : c.rest = s :: rest) :
    ∃ d : c.Shorter, c.eat? s = some d ∧ d.1.rest = rest := by
  obtain ⟨d, hnext, hd⟩ := next?_of_rest h
  exact ⟨d, by simp only [eat?, hnext, if_true], hd⟩

theorem expect_of_rest (h : c.rest = s :: rest) :
    ∃ d : c.Shorter, c.expect s = .ok d ∧ d.1.rest = rest := by
  obtain ⟨d, heat, hd⟩ := eat?_of_rest h
  exact ⟨d, by simp only [expect, heat], hd⟩

theorem eatAll?_of_rest (h : c.rest = symbols ++ rest) :
    ∃ d : c.NotLonger, c.eatAll? symbols = some d ∧ d.1.rest = rest := by
  induction symbols generalizing c with
  | nil => exact ⟨.here, rfl, h⟩
  | cons s symbols ih =>
    obtain ⟨d, heat, hd⟩ := eat?_of_rest h
    obtain ⟨e, hmore, he⟩ := ih hd
    exact ⟨(d.andThen e).weaken, by simp only [eatAll?, heat, hmore], he⟩

theorem span_of_rest (h : c.rest = run ++ rest) (hrun : ∀ s ∈ run, p s = true)
    (hrest : Stops p rest) : ∃ e : c.NotLonger, c.span p = (run, e) ∧ e.1.rest = rest := by
  obtain ⟨position, _⟩ := c
  subst h
  have htake : (run ++ rest).takeWhile p = run := by
    rw [List.takeWhile_append_of_pos hrun]
    cases rest with
    | nil => rw [List.takeWhile_nil, List.append_nil]
    | cons s rest => rw [List.takeWhile_cons_of_neg (by simp [hrest s rfl]), List.append_nil]
  have hdrop : (run ++ rest).dropWhile p = rest := by
    rw [List.dropWhile_append_of_pos hrun]
    cases rest with
    | nil => rfl
    | cons s rest => rw [List.dropWhile_cons_of_neg (by simp [hrest s rfl])]
  exact ⟨(span p ⟨position, run ++ rest⟩).2, by simp only [span, htake], hdrop⟩

/-! ## What was there -/

theorem rest_of_next? {d : c.Shorter} (h : c.next? = some (s, d)) : c.rest = s :: d.1.rest := by
  obtain ⟨position, rest⟩ := c
  cases rest with
  | nil => exact absurd h (by simp [next?])
  | cons symbol rest =>
    cases h
    rfl

theorem rest_of_eat? {d : c.Shorter} (h : c.eat? s = some d) : c.rest = s :: d.1.rest := by
  unfold eat? at h
  split at h
  · rename_i symbol e hnext
    split at h
    · rename_i heq
      cases h
      exact heq ▸ rest_of_next? hnext
    · exact absurd h (by simp)
  · exact absurd h (by simp)

theorem rest_of_expect {d : c.Shorter} (h : c.expect s = .ok d) : c.rest = s :: d.1.rest := by
  unfold expect at h
  split at h
  · rename_i e heat
    cases h
    exact rest_of_eat? heat
  · exact absurd h (by simp)

theorem rest_of_eatAll? {d : c.NotLonger} (h : c.eatAll? symbols = some d) :
    c.rest = symbols ++ d.1.rest := by
  induction symbols generalizing c with
  | nil =>
    cases h
    rfl
  | cons s symbols ih =>
    unfold eatAll? at h
    split at h
    · exact absurd h (by simp)
    · rename_i e heat
      split at h
      · exact absurd h (by simp)
      · rename_i f hmore
        cases h
        exact (rest_of_eat? heat).trans (congrArg (s :: ·) (ih hmore))

theorem rest_of_span (c : Cursor) (p : Char → Bool) :
    c.rest = (c.span p).1 ++ (c.span p).2.1.rest ∧ ∀ s ∈ (c.span p).1, p s = true := by
  obtain ⟨position, rest⟩ := c
  exact ⟨List.takeWhile_append_dropWhile.symm, fun s hmem =>
    List.all_eq_true.1 List.all_takeWhile s hmem⟩

theorem eat?_eq_none (h : c.rest.head? ≠ some symbol) : c.eat? symbol = none := by
  cases heat : c.eat? symbol with
  | none => rfl
  | some d => exact absurd (by rw [rest_of_eat? heat]; rfl) h

/-! ## Whole texts -/

variable {α : Type} {reader : (c : Cursor) → Except ReadingFault (α × c.Shorter)} {text : String} {a : α}

/-- A text is read as what its reader gives at the end of the text. -/
theorem readAll_eq_ok_iff : readAll reader text = .ok a ↔ Gives (reader (ofString text)) a [] := by
  unfold readAll Gives
  cases hread : reader (ofString text) with
  | error fault => simp
  | ok result =>
    obtain ⟨b, d⟩ := result
    have hunique : (∃ e : (ofString text).Shorter, Except.ok (ε := ReadingFault) (b, d) = .ok (a, e) ∧
        e.1.rest = []) ↔ b = a ∧ d.1.rest = [] := by
      constructor
      · rintro ⟨e, heq, he⟩
        cases heq
        exact ⟨rfl, he⟩
      · rintro ⟨rfl, hd⟩
        exact ⟨d, rfl, hd⟩
    rw [hunique]
    cases hrest : d.1.rest with
    | nil => simp [finish, hrest]
    | cons s rest => simp [finish, hrest]

/-- A reader and a writer undo each other on the values that satisfy `good`, and no other value is
read. -/
structure Inverts (reader : (c : Cursor) → Except ReadingFault (α × c.Shorter)) (write : α → List Char)
    (good : α → Prop) : Prop where
  reads : ∀ a, good a → ∀ c : Cursor, c.rest = write a → Gives (reader c) a []
  writes : ∀ (c : Cursor) (a : α) (d : c.Shorter), reader c = .ok (a, d) →
    good a ∧ c.rest = write a ++ d.1.rest
  visible : ∀ a, good a → Visible (write a)

variable {write : α → List Char} {good : α → Prop}

/-- A text is read as the value whose writing it is, up to blanks. -/
theorem Inverts.readAll_eq_ok_iff (h : Inverts reader write good) :
    readAll reader text = .ok a ↔ good a ∧ String.ofList (write a) = withoutBlanks text := by
  rw [Cursor.readAll_eq_ok_iff, withoutBlanks, String.ofList_inj]
  constructor
  · rintro ⟨d, hread, hrest⟩
    obtain ⟨hgood, hwrite⟩ := h.writes _ a d hread
    rw [hrest, List.append_nil] at hwrite
    exact ⟨hgood, hwrite.symm⟩
  · rintro ⟨hgood, hwrite⟩
    exact h.reads a hgood _ hwrite.symm

theorem Inverts.readAll_write (h : Inverts reader write good) :
    readAll reader (String.ofList (write a)) = .ok a ↔ good a := by
  rw [h.readAll_eq_ok_iff, withoutBlanks, String.toList_ofList, and_iff_left_iff_imp]
  exact fun hgood => by rw [(h.visible a hgood).filter_eq]

end Cursor

end Satisfiability.Text
