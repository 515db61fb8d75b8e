import Mathlib.Data.List.DropRight
import Mathlib.Data.List.SplitBy
import Satisfiability.Proofs.Text.Cursor
import Satisfiability.Text.Numeral
import Satisfiability.Text.Words

/-!
# Lines, words and decimal integers

A line feed is encoded by the byte ten, and no other character has that byte in its encoding, so a
text may be cut into lines before or after it is encoded (`lines_toUTF8`). The words of a line are
the words of its parts where a blank meets a visible character (`words_append`). An integer of 64
bits is read from its decimal text (`integer?_toString`).
-/

namespace Satisfiability.Text

open List (rdropWhile)

variable {s t : List Char}

/-! ## Words -/

theorem words_append (h : ∀ a ∈ s.getLast?, ∀ b ∈ t.head?, isBlank a ≠ isBlank b) :
    words (s ++ t) = words s ++ words t := by
  have hsplit := List.splitBy_append (r := fun a b => isBlank a == isBlank b) (l := s) (m := t)
    fun a ha b hb => beq_eq_false_iff_ne.2 (h a ha b hb)
  rw [words, hsplit, List.filter_append]
  rfl

theorem splitBy_of_same {value : Bool} (hne : s ≠ []) (h : ∀ c ∈ s, isBlank c = value) :
    (s.splitBy fun a b => isBlank a == isBlank b) = [s] := by
  refine List.splitBy_of_isChain hne ?_
  refine List.Pairwise.isChain (List.pairwise_of_forall_mem_list fun a ha b hb => ?_)
  rw [h a ha, h b hb]
  exact beq_self_eq_true value

theorem words_of_blank (h : ∀ c ∈ s, isBlank c = true) : words s = [] := by
  rcases eq_or_ne s [] with rfl | hne
  · rfl
  · rw [words, splitBy_of_same hne h, List.filter_cons_of_neg, List.filter_nil]
    rw [Bool.not_eq_true, List.any_eq_false]
    intro c hc
    rw [h c hc]
    decide

theorem words_of_visible (hne : s ≠ []) (h : Visible s) : words s = [s] := by
  rw [words, splitBy_of_same hne h, List.filter_cons_of_pos, List.filter_nil]
  rw [List.any_eq_true]
  exact ⟨s.head hne, List.head_mem hne, by rw [h _ (List.head_mem hne)]; rfl⟩

theorem words_dropWhile (s : List Char) : words (s.dropWhile isBlank) = words s := by
  have happend : words (s.takeWhile isBlank ++ s.dropWhile isBlank) =
      words (s.takeWhile isBlank) ++ words (s.dropWhile isBlank) := by
    refine words_append fun a ha b hb => ?_
    have hblank : isBlank a = true :=
      List.all_eq_true.1 List.all_takeWhile a (List.mem_of_getLast? ha)
    have hvisible : isBlank b = false := by
      simpa [Option.mem_def.1 hb] using List.head?_dropWhile_not isBlank s
    rw [hblank, hvisible]
    decide
  have hnone : words (s.takeWhile isBlank) = [] :=
    words_of_blank fun c hc => List.all_eq_true.1 List.all_takeWhile c hc
  rw [hnone, List.takeWhile_append_dropWhile, List.nil_append] at happend
  exact happend.symm

theorem words_rdropWhile (s : List Char) : words (s.rdropWhile isBlank) = words s := by
  have happend : words (s.rdropWhile isBlank ++ s.rtakeWhile isBlank) =
      words (s.rdropWhile isBlank) ++ words (s.rtakeWhile isBlank) := by
    refine words_append fun a ha b hb => ?_
    have hblank : isBlank b = true := List.mem_rtakeWhile_imp (List.mem_of_head? hb)
    have hvisible : isBlank a = false := by
      have hne : s.rdropWhile isBlank ≠ [] := by
        intro hnil
        rw [hnil] at ha
        exact absurd ha (by simp)
      have hlast := List.rdropWhile_last_not isBlank s hne
      rw [List.getLast?_eq_getLast_of_ne_nil hne, Option.mem_some_iff] at ha
      rwa [ha, Bool.not_eq_true] at hlast
    rw [hblank, hvisible]
    decide
  have hnone : words (s.rtakeWhile isBlank) = [] :=
    words_of_blank fun c hc => List.mem_rtakeWhile_imp hc
  rw [hnone, List.rdropWhile_append_rtakeWhile, List.append_nil] at happend
  exact happend.symm

theorem words_trimBlanks (s : List Char) : words (trimBlanks s) = words s :=
  (words_rdropWhile _).trans (words_dropWhile s)

theorem head?_dropWhile_isBlank (s : List Char) :
    (s.dropWhile isBlank).head? = s.find? (!isBlank ·) := by
  induction s with
  | nil => rfl
  | cons c rest ih =>
    cases hc : isBlank c with
    | true => rw [List.dropWhile_cons_of_pos hc, List.find?_cons_of_neg (by simp [hc]), ih]
    | false =>
      rw [List.dropWhile_cons_of_neg (by simp [hc]), List.find?_cons_of_pos (by simp [hc])]
      rfl

theorem words_cons_blank {c : Char} (h : isBlank c = true) : words (c :: t) = words t := by
  rw [← words_dropWhile, List.dropWhile_cons_of_pos h, words_dropWhile]

theorem words_append_blank {c : Char} (hne : s ≠ []) (hs : Visible s) (hc : isBlank c = true) :
    words (s ++ c :: t) = s :: words t := by
  rw [words_append, words_of_visible hne hs, words_cons_blank hc, List.singleton_append]
  intro a ha b hb
  obtain rfl : c = b := Option.some.inj hb
  rw [hs a (List.mem_of_getLast? ha), hc]
  decide

theorem find?_eq_words (s : List Char) :
    s.find? (!isBlank ·) = (words s).head?.bind List.head? := by
  rw [← head?_dropWhile_isBlank, ← words_dropWhile]
  cases hdrop : s.dropWhile isBlank with
  | nil => rfl
  | cons c rest =>
    have hvisible : isBlank c = false := by simpa [hdrop] using List.head?_dropWhile_not isBlank s
    have hne : (c :: rest).splitBy (fun a b => isBlank a == isBlank b) ≠ [] :=
      List.splitBy_ne_nil.2 (List.cons_ne_nil _ _)
    obtain ⟨run, runs, hruns⟩ := List.exists_cons_of_ne_nil hne
    have hmem : run ∈ (c :: rest).splitBy fun a b => isBlank a == isBlank b :=
      hruns ▸ List.mem_cons_self
    have hrun : run ≠ [] := List.ne_nil_of_mem_splitBy hmem
    have hhead : run.head hrun = c := by
      have hheads := List.head_head_splitBy (fun a b => isBlank a == isBlank b)
        (List.cons_ne_nil c rest)
      simpa only [hruns, List.head_cons] using hheads
    rw [words, hruns, List.filter_cons_of_pos]
    · change some c = run.head?
      rw [List.head?_eq_some_head hrun, hhead]
    · exact List.any_eq_true.2 ⟨c, hhead ▸ List.head_mem hrun, by rw [hvisible]; rfl⟩

theorem head?_trimBlanks (s : List Char) : (trimBlanks s).head? = s.find? (!isBlank ·) := by
  rw [← head?_dropWhile_isBlank]
  change ((s.dropWhile isBlank).rdropWhile isBlank).head? = _
  obtain ⟨ending, hprefix⟩ := List.rdropWhile_prefix isBlank (s.dropWhile isBlank)
  cases hdrop : s.dropWhile isBlank with
  | nil => rfl
  | cons c rest =>
    have hvisible : isBlank c = false := by simpa [hdrop] using List.head?_dropWhile_not isBlank s
    rw [hdrop] at hprefix
    cases htrim : (c :: rest).rdropWhile isBlank with
    | nil =>
      have hblank := List.rdropWhile_eq_nil_iff.1 htrim c List.mem_cons_self
      rw [hvisible] at hblank
      exact absurd hblank (by simp)
    | cons d more =>
      rw [htrim] at hprefix
      rw [← hprefix]
      rfl

/-! ## Lines -/

section split

variable {α : Type} {p : α → Bool} {front : List α}

theorem splitAtAll_ne_nil (p : α → Bool) (s : List α) : splitAtAll p s ≠ [] := by
  cases s with
  | nil => exact List.cons_ne_nil _ _
  | cons a rest =>
    unfold splitAtAll
    split
    · exact List.cons_ne_nil _ _
    · split <;> exact List.cons_ne_nil _ _

theorem splitAtAll_append (h : ∀ a ∈ front, p a = false) (s : List α) :
    splitAtAll p (front ++ s) = (splitAtAll p s).modifyHead (front ++ ·) := by
  induction front with
  | nil =>
    cases hpieces : splitAtAll p s with
    | nil => exact absurd hpieces (splitAtAll_ne_nil p s)
    | cons piece pieces => exact hpieces
  | cons a front ih =>
    obtain ⟨ha, hfront⟩ := List.forall_mem_cons.1 h
    rw [List.cons_append, splitAtAll, if_neg (by simp [ha]), ih hfront]
    cases hpieces : splitAtAll p s with
    | nil => exact absurd hpieces (splitAtAll_ne_nil p s)
    | cons piece pieces => rfl

theorem splitAtAll_append_cons {a : α} (h : ∀ a ∈ front, p a = false) (ha : p a = true) (s : List α) :
    splitAtAll p (front ++ a :: s) = front :: splitAtAll p s := by
  rw [splitAtAll_append h, splitAtAll, if_pos ha, List.modifyHead_cons, List.append_nil]

end split

theorem ne_ten_of_mem_utf8EncodeChar {c : Char} (hc : c ≠ '\n') {byte : UInt8}
    (h : byte ∈ String.utf8EncodeChar c) : byte ≠ 10 := by
  rintro rfl
  have hten : c.val.toNat ≠ 10 := fun heq => hc (Char.toNat_inj.1 heq)
  -- the bytes of longer encodings are all at least 128
  have hlow : ∀ n : Nat, (10 : UInt8) = UInt8.ofNat n → n % 256 = 10 := fun n hn => by
    simpa using (congrArg UInt8.toNat hn).symm
  unfold String.utf8EncodeChar at h
  dsimp only at h
  split at h
  · have := hlow _ (List.mem_singleton.1 h)
    omega
  · split at h
    · simp only [List.mem_cons, List.not_mem_nil, or_false] at h
      rcases h with h | h <;> have := hlow _ h <;> omega
    · split at h
      · simp only [List.mem_cons, List.not_mem_nil, or_false] at h
        rcases h with h | h | h <;> have := hlow _ h <;> omega
      · simp only [List.mem_cons, List.not_mem_nil, or_false] at h
        rcases h with h | h | h | h <;> have := hlow _ h <;> omega

theorem splitAtAll_utf8Encode (s : List Char) :
    splitAtAll (· == 10) (s.flatMap String.utf8EncodeChar) =
      (splitAtAll (· == '\n') s).map fun line => line.flatMap String.utf8EncodeChar := by
  induction s with
  | nil => rfl
  | cons c rest ih =>
    by_cases hc : c = '\n'
    · subst hc
      have hbyte : (List.flatMap String.utf8EncodeChar ('\n' :: rest)) =
          [] ++ 10 :: rest.flatMap String.utf8EncodeChar := rfl
      rw [hbyte, splitAtAll_append_cons (List.forall_mem_nil _) rfl, ih]
      rfl
    · have hbytes : ∀ byte ∈ String.utf8EncodeChar c, (byte == 10) = false := fun byte hbyte =>
        beq_eq_false_iff_ne.2 (ne_ten_of_mem_utf8EncodeChar hc hbyte)
      rw [List.flatMap_cons, splitAtAll_append hbytes, ih, splitAtAll, if_neg (by simpa using hc)]
      cases hlines : splitAtAll (· == '\n') rest with
      | nil => exact absurd hlines (splitAtAll_ne_nil _ rest)
      | cons line lines => simp

/-- The lines of a text are what stands between its line feeds. -/
theorem lines_toUTF8 (text : String) :
    lines text.toUTF8 = (splitAtAll (· == '\n') text.toList).map (some ∘ String.ofList) := by
  have hbytes : text.toUTF8.data.toList = text.toList.flatMap String.utf8EncodeChar := by
    rw [String.toUTF8_eq_toByteArray, ← String.utf8Encode_toList, List.utf8Encode]
    simp
  have hline : ∀ line : List Char,
      String.fromUTF8? ⟨(line.flatMap String.utf8EncodeChar).toArray⟩ = some (String.ofList line) := by
    intro line
    have hencode : (⟨(line.flatMap String.utf8EncodeChar).toArray⟩ : ByteArray) = line.utf8Encode :=
      ByteArray.ext List.data_toByteArray.symm
    rw [hencode, String.fromUTF8?, dif_pos ByteArray.isValidUTF8_utf8Encode]
    rfl
  rw [lines, hbytes, splitAtAll_utf8Encode, List.map_map]
  exact List.map_congr_left fun line _ => hline line

/-! ## Integers -/

section integers

variable {n : Int}

theorem natural?_repr (n : Nat) : natural? (Nat.repr n).toList = some n := by
  rw [Nat.repr_eq_ofList_toDigits, String.toList_ofList, natural?, if_neg]
  · exact congrArg some Nat.ofDigitChars_ten_toDigits
  · rw [Bool.not_eq_true, Bool.or_eq_false_iff, List.isEmpty_eq_false_iff, Bool.not_eq_false',
      List.all_eq_true]
    exact ⟨Nat.toDigits_ne_nil, fun c hc => Nat.isDigit_of_mem_toDigits (by decide) (by decide) hc⟩

theorem visible_repr (n : Nat) : Visible (Nat.repr n).toList := by
  rw [Nat.repr_eq_ofList_toDigits, String.toList_ofList]
  intro c hc
  have hdigit := Nat.isDigit_of_mem_toDigits (by decide) (by decide) hc
  exact isBlank_of_isAlphanum (by rw [Char.isAlphanum, hdigit, Bool.or_true])

theorem visible_toString (n : Int) : Visible (toString n).toList := by
  cases n with
  | ofNat n => exact visible_repr n
  | negSucc n =>
    change Visible ("-" ++ Nat.repr (n + 1)).toList
    rw [String.toList_append]
    exact visible_cons (by decide) (visible_repr (n + 1))

theorem toString_ne_nil (n : Int) : (toString n).toList ≠ [] := by
  cases n with
  | ofNat n =>
    change (Nat.repr n).toList ≠ []
    rw [Nat.repr_eq_ofList_toDigits, String.toList_ofList]
    exact Nat.toDigits_ne_nil
  | negSucc n =>
    change ("-" ++ Nat.repr (n + 1)).toList ≠ []
    rw [String.toList_append]
    exact List.cons_ne_nil _ _

theorem head?_of_integer? {s : Char} (h : integer? t = some n) (hs : t.head? = some s) :
    s = '-' ∨ s = '+' ∨ s.isDigit = true := by
  have hdigit : ∀ {m : Nat}, natural? t = some m → s.isDigit = true := by
    intro m hm
    unfold natural? at hm
    split at hm
    · exact absurd hm (by simp)
    · rename_i hall
      rw [Bool.not_eq_true, Bool.or_eq_false_iff, Bool.not_eq_false', List.all_eq_true] at hall
      exact hall.2 s (List.mem_of_head? hs)
  unfold integer? at h
  obtain ⟨hsigned, -⟩ := Option.filter_eq_some_iff.1 h
  split at hsigned
  · exact Or.inl (Option.some.inj hs).symm
  · exact Or.inr (Or.inl (Option.some.inj hs).symm)
  · obtain ⟨m, hm, -⟩ := Option.map_eq_some_iff.1 hsigned
    exact Or.inr (Or.inr (hdigit hm))

/-- An integer of 64 bits is read from its decimal text. -/
theorem integer?_toString (hlow : -(signBit : Int) ≤ n) (hhigh : n < signBit) :
    integer? (toString n).toList = some n := by
  have hfits : (decide (-(signBit : Int) ≤ n) && decide (n < (signBit : Int))) = true := by
    rw [decide_eq_true hlow, decide_eq_true hhigh]
    rfl
  cases n with
  | ofNat n =>
    change integer? (Nat.repr n).toList = _
    have hnatural := natural?_repr n
    -- the first digit is no sign
    have hdigit : ∀ c more, (Nat.repr n).toList = c :: more → c.isDigit = true := by
      intro c more h
      rw [Nat.repr_eq_ofList_toDigits, String.toList_ofList] at h
      exact Nat.isDigit_of_mem_toDigits (by decide) (by decide) (h ▸ List.mem_cons_self)
    unfold integer?
    split
    · rename_i h
      exact absurd (hdigit _ _ h) (by decide)
    · rename_i h
      exact absurd (hdigit _ _ h) (by decide)
    · rw [hnatural, Option.map_some]
      exact Option.filter_some_pos hfits
  | negSucc n =>
    have htext : (toString (Int.negSucc n)).toList = '-' :: (Nat.repr (n + 1)).toList := by
      change ("-" ++ Nat.repr (n + 1)).toList = _
      rw [String.toList_append]
      rfl
    rw [htext, integer?, natural?_repr]
    exact Option.filter_some_pos hfits

end integers

end Satisfiability.Text
