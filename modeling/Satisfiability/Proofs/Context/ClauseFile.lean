import Satisfiability.Context.ClauseFile
import Satisfiability.Proofs.Text.Lines

/-!
# Clause files and their integers

Of a clause file only the sequence of its integers matters, and not how they are laid out in lines:
reading is the same operation as cutting the sequence at its zeros and adding the clauses one after
the other (`readClauseFile_eq`). Line by line, the integers of a line are read one after the other
(`LineSays.readLines_eq`), and what a problem line tells does not matter for what is read.
-/

namespace Satisfiability.Context

open Text

variable {ρ : Type}

/-! ## What a file says -/

/-- A line holds some integers, and may tell how many atoms and clauses to expect. -/
inductive LineSays : (line : List Char) → List Int → Option (Nat × Nat) → Prop
  | blank {line : List Char} (h : ∀ s ∈ line, isBlank s = true) : LineSays line [] none
  | comment {line : List Char} (h : line.find? (!isBlank ·) = some 'c') : LineSays line [] none
  | problem {line first second atomsWord clausesWord : List Char} {more : List (List Char)}
    {atoms clauses : Nat} (h : line.find? (!isBlank ·) = some 'p')
    (hwords : words line = first :: second :: atomsWord :: clausesWord :: more)
    (hatoms : unsigned? atomsWord = some atoms) (hclauses : unsigned? clausesWord = some clauses) :
    LineSays line [] (some (atoms, clauses))
  | integers {line : List Char} {numbers : List Int}
    (h : List.Forall₂ (fun word n => integer? word = some n) (words line) numbers) :
    LineSays line numbers none

/-- The lines of a file, up to one that begins with `%` if there is one, hold some integers, and the
last problem line tells how many atoms and clauses to expect. -/
inductive FileSays : (lines : List (List Char)) → List Int → Option (Nat × Nat) → Prop
  | done : FileSays [] [] none
  | cut {line : List Char} {rest : List (List Char)} (h : line.find? (!isBlank ·) = some '%') :
    FileSays (line :: rest) [] none
  | line {line : List Char} {rest : List (List Char)} {numbers more : List Int}
    {expected later : Option (Nat × Nat)} (h : LineSays line numbers expected)
    (hrest : FileSays rest more later) :
    FileSays (line :: rest) (numbers ++ more) (later.or expected)

/-- The clauses of a sequence of integers: a zero ends a clause, and integers behind the last zero
are a clause too. -/
def clausesOf (numbers : List Int) : List (List Int) :=
  let pieces := splitAtAll (· == 0) numbers
  if pieces.getLast? = some [] then pieces.dropLast else pieces

/-- The literal of an integer, over the atom that has the absolute value as its name. -/
def literalOf (n : Int) : Step (Context ρ) Literal := do
  let atom ← atomNamed (Nat.repr n.natAbs)
  return ⟨atom, decide (0 < n)⟩

/-- Looks the literals of some integers up, and adds the clause of them. -/
def addNumbers (numbers : List Int) : Step (Context ρ) Unit := do
  discard (addClause (← numbers.mapM literalOf))

section pieces

variable {front rest : List Int}

theorem clausesOf_of_no_zero (h : ∀ n ∈ front, n ≠ 0) :
    clausesOf front = if front = [] then [] else [front] := by
  have hpieces : splitAtAll (· == 0) front = [front] := by
    have happend : splitAtAll (· == 0) (front ++ []) = _ :=
      splitAtAll_append (fun n hn => beq_eq_false_iff_ne.2 (h n hn)) []
    rwa [List.append_nil, splitAtAll, List.modifyHead_cons, List.append_nil] at happend
  rw [clausesOf, hpieces]
  cases front <;> simp

theorem clausesOf_append_zero (h : ∀ n ∈ front, n ≠ 0) (rest : List Int) :
    clausesOf (front ++ 0 :: rest) = front :: clausesOf rest := by
  have hpieces : splitAtAll (· == 0) (front ++ 0 :: rest) = front :: splitAtAll (· == 0) rest :=
    splitAtAll_append_cons (fun n hn => beq_eq_false_iff_ne.2 (h n hn)) rfl rest
  rw [clausesOf, hpieces, clausesOf]
  cases hrest : splitAtAll (· == 0) rest with
  | nil => exact absurd hrest (splitAtAll_ne_nil _ rest)
  | cons piece pieces =>
    rw [List.getLast?_cons_cons, List.dropLast_cons_of_ne_nil (List.cons_ne_nil _ _)]
    split <;> rfl

end pieces

/-! ## Reading integers -/

def readNumber (reading : FileReading) (n : Int) : Step (Context ρ) FileReading :=
  if n = 0 then endClause reading
  else do
    let literal ← literalOf n
    return { reading with clause := reading.clause ++ [literal] }

theorem readItem_eq {word : List Char} {n : Int} (h : integer? word = some n) (line : Nat)
    (reading : FileReading) :
    (readItem line reading word : Step (Context ρ) FileReading) = readNumber reading n := by
  rw [readItem, h, readNumber, literalOf]
  simp only [bind_assoc, pure_bind]

theorem readItems_eq {numbers : List Int} {items : List (List Char)}
    (h : List.Forall₂ (fun word n => integer? word = some n) items numbers) (line : Nat)
    (reading : FileReading) :
    (items.foldlM (readItem line) reading : Step (Context ρ) FileReading) =
      numbers.foldlM readNumber reading := by
  induction h generalizing reading with
  | nil => rfl
  | cons hword _ ih =>
    rw [List.foldlM_cons, List.foldlM_cons, readItem_eq hword]
    exact bind_congr ih

def FileReading.expecting (expected : Option (Nat × Nat)) (reading : FileReading) : FileReading :=
  { reading with counts := { reading.counts with expected := expected.or reading.counts.expected } }

theorem readNumbers_expecting (expected : Option (Nat × Nat)) (numbers : List Int)
    (reading : FileReading) :
    (numbers.foldlM readNumber (reading.expecting expected) : Step (Context ρ) FileReading) =
      FileReading.expecting expected <$> numbers.foldlM readNumber reading := by
  induction numbers generalizing reading with
  | nil => rfl
  | cons n rest ih =>
    have hnumber : (readNumber (reading.expecting expected) n : Step (Context ρ) FileReading) =
        FileReading.expecting expected <$> readNumber reading n := by
      unfold readNumber endClause
      split <;> simp only [map_bind, map_pure] <;> rfl
    rw [List.foldlM_cons, List.foldlM_cons, hnumber, map_bind, bind_map_left]
    exact bind_congr ih

/-! ## Reading lines -/

section lines

variable {line : List Char} {numbers : List Int} {expected : Option (Nat × Nat)}
  {reading : FileReading}

theorem readLines_integers (hc : line.find? (!isBlank ·) ≠ some 'c')
    (hp : line.find? (!isBlank ·) ≠ some 'p') (hcut : line.find? (!isBlank ·) ≠ some '%')
    (number : Nat) (rest : List (Option String)) :
    (readLines reading number (some (String.ofList line) :: rest) : Step (Context ρ) FileReading) =
      (words line).foldlM (readItem number) reading >>= fun reading =>
        readLines reading (number + 1) rest := by
  rw [readLines]
  dsimp only
  rw [String.toList_ofList, words_trimBlanks, head?_trimBlanks]
  split
  · rename_i hnone
    rw [words_of_blank (by simpa using hnone)]
    rfl
  · exact absurd ‹_› hc
  · exact absurd ‹_› hcut
  · exact absurd ‹_› hp
  · rfl

theorem LineSays.readLines_eq (h : LineSays line numbers expected) (number : Nat)
    (rest : List (Option String)) :
    (readLines reading number (some (String.ofList line) :: rest) : Step (Context ρ) FileReading) =
      numbers.foldlM readNumber reading >>= fun reading =>
        readLines (reading.expecting expected) (number + 1) rest := by
  have hnothing : (reading.expecting none) = reading := rfl
  cases h with
  | blank h =>
    have hnone : line.find? (!isBlank ·) = none := by simpa using h
    rw [readLines_integers (by simp [hnone]) (by simp [hnone]) (by simp [hnone]), words_of_blank h]
    rfl
  | comment h =>
    rw [readLines]
    dsimp only
    rw [String.toList_ofList, head?_trimBlanks, h]
    rfl
  | problem h hwords hatoms hclauses =>
    rw [readLines]
    dsimp only
    rw [String.toList_ofList, head?_trimBlanks, h, words_trimBlanks, hwords, readProblemLine]
    simp only [List.drop_succ_cons, List.drop_zero, hatoms, hclauses]
    rfl
  | integers h =>
    -- a line whose first word is a number begins with neither of the three marks
    have hfirst : ∀ s, line.find? (!isBlank ·) = some s → s = '-' ∨ s = '+' ∨ s.isDigit = true := by
      intro s hs
      rw [find?_eq_words] at hs
      generalize words line = items at h hs
      cases h with
      | nil => exact absurd hs (by simp)
      | cons hword _ => exact head?_of_integer? hword hs
    rw [readLines_integers, readItems_eq h]
    · rfl
    · exact fun hs => absurd (hfirst _ hs) (by decide)
    · exact fun hs => absurd (hfirst _ hs) (by decide)
    · exact fun hs => absurd (hfirst _ hs) (by decide)

theorem FileSays.readLines_eq {lines : List (List Char)} (h : FileSays lines numbers expected)
    (number : Nat) :
    (readLines reading number (lines.map (some ∘ String.ofList)) : Step (Context ρ) FileReading) =
      FileReading.expecting expected <$> numbers.foldlM readNumber reading := by
  induction h generalizing reading number with
  | done => rfl
  | cut h =>
    rw [List.map_cons, Function.comp_apply, readLines]
    dsimp only
    rw [String.toList_ofList, head?_trimBlanks, h]
    rfl
  | @line line rest numbers more expected later h _ ih =>
    rw [List.map_cons, Function.comp_apply, h.readLines_eq, List.foldlM_append, map_bind]
    refine bind_congr fun reading' => ?_
    rw [ih, readNumbers_expecting, ← comp_map]
    refine congrArg (· <$> _) (funext fun reading'' => ?_)
    unfold FileReading.expecting
    simp only [Function.comp_apply, Option.or_assoc]

end lines

/-! ## Clause by clause -/

section clauses

variable {front : List Int}

theorem readNumbers_of_no_zero (h : ∀ n ∈ front, n ≠ 0) (reading : FileReading) :
    (front.foldlM readNumber reading : Step (Context ρ) FileReading) = do
      let literals ← front.mapM literalOf
      return { reading with clause := reading.clause ++ literals } := by
  induction front generalizing reading with
  | nil => simp only [List.foldlM_nil, List.mapM_nil, pure_bind, List.append_nil]
  | cons n rest ih =>
    obtain ⟨hn, hrest⟩ := List.forall_mem_cons.1 h
    rw [List.foldlM_cons, List.mapM_cons, readNumber, if_neg hn]
    simp only [ih hrest, bind_assoc, pure_bind, List.append_assoc, List.singleton_append]

def finishFile (reading : FileReading) : Step (Context ρ) FileCounts :=
  if reading.clause.isEmpty then return reading.counts
  else do return (← endClause reading).counts

theorem readNumbers_finish (numbers : List Int) (counts : FileCounts) :
    (numbers.foldlM readNumber { counts } >>= finishFile : Step (Context ρ) FileCounts) = do
      (clausesOf numbers).forM addNumbers
      return { counts with clauses := counts.clauses + (clausesOf numbers).length } := by
  by_cases hzero : (0 : Int) ∈ numbers
  · -- the clause up to the first zero, and then the others
    obtain ⟨front, rest, rfl, hnot⟩ := List.eq_append_cons_of_mem hzero
    have hfront : ∀ n ∈ front, n ≠ 0 := fun n hn heq => hnot (heq ▸ hn)
    rw [List.foldlM_append, readNumbers_of_no_zero hfront, clausesOf_append_zero hfront,
      List.length_cons]
    simp only [List.foldlM_cons, readNumber, if_true, endClause, addNumbers, List.forM, bind_assoc,
      pure_bind, List.nil_append, readNumbers_finish rest, Nat.add_assoc, Nat.add_comm 1]
  · have hfront : ∀ n ∈ numbers, n ≠ 0 := fun n hn heq => hzero (heq ▸ hn)
    rw [readNumbers_of_no_zero hfront, clausesOf_of_no_zero hfront]
    cases numbers with
    | nil => rfl
    | cons n more =>
      rw [if_neg (List.cons_ne_nil _ _)]
      simp only [List.mapM_cons, bind_assoc, pure_bind, List.nil_append, finishFile, endClause,
        List.isEmpty_cons, Bool.false_eq_true, if_false, List.forM, addNumbers, List.length_singleton]
termination_by numbers.length

end clauses

/-- Reading a file is adding the clauses of its integers one after the other. -/
theorem readClauseFile_eq {text : String} {numbers : List Int} {expected : Option (Nat × Nat)}
    (h : FileSays (splitAtAll (· == '\n') text.toList) numbers expected) :
    (readClauseFile text.toUTF8 : Step (Context ρ) FileCounts) = do
      (clausesOf numbers).forM addNumbers
      return { expected, clauses := (clausesOf numbers).length } := by
  have hfinish : (readClauseFile text.toUTF8 : Step (Context ρ) FileCounts) =
      readLines {} 1 (lines text.toUTF8) >>= finishFile := rfl
  have hstart : (FileReading.expecting expected {}) = { counts := { expected } } := by
    rw [FileReading.expecting, Option.or_none]
  rw [hfinish, lines_toUTF8, h.readLines_eq, ← readNumbers_expecting, hstart, readNumbers_finish]
  simp only [Nat.zero_add]

end Satisfiability.Context
