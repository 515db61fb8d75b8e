import Satisfiability.Search.Trail

/-!
# Trails with marks

`Trail.marked` lists the literals of a trail, the oldest first, each with its level. The operations
on trails are stated on this list: a push adds a literal at the end, and a return to a level keeps
what is marked with it or a level below. `Trail.Filled` says that no open level is bare.
-/

namespace Satisfiability.Search.Trail

/-- The literals of levels listed from the newest, with their levels, the oldest first. -/
def markedLevels : List (List Literal) → List (Literal × Nat)
  | [] => []
  | top :: below => markedLevels below ++ top.map (·, below.length + 1)

def marked (trail : Trail) : List (Literal × Nat) :=
  trail.ground.map (·, 0) ++ markedLevels trail.levels

def Filled (trail : Trail) : Prop := ∀ literals ∈ trail.levels, literals ≠ []

variable {trail : Trail} {literal : Literal}

theorem map_fst_markedLevels (levels : List (List Literal)) :
    (markedLevels levels).map Prod.fst = levels.reverse.flatten := by
  induction levels with
  | nil => rfl
  | cons top below ih => simp [markedLevels, ih, Function.comp_def]

theorem map_fst_marked (trail : Trail) : trail.marked.map Prod.fst = trail.literals := by
  simp [marked, literals, byLevel, map_fst_markedLevels, Function.comp_def]

theorem length_marked (trail : Trail) : trail.marked.length = trail.size := by
  have hlevels : (markedLevels trail.levels).length = trail.levels.flatten.length := by
    rw [← List.length_map Prod.fst, map_fst_markedLevels]
    simp
  simp [marked, size, hlevels]

theorem mem_literals_iff : literal ∈ trail.literals ↔ ∃ level, (literal, level) ∈ trail.marked := by
  rw [← map_fst_marked]
  simp

/-! ## Levels -/

theorem level_le_of_mem_markedLevels {levels : List (List Literal)} {mark : Literal × Nat}
    (hmark : mark ∈ markedLevels levels) : 0 < mark.2 ∧ mark.2 ≤ levels.length := by
  induction levels with
  | nil => simp [markedLevels] at hmark
  | cons top below ih =>
    simp only [markedLevels, List.mem_append, List.mem_map] at hmark
    rcases hmark with hmark | ⟨_, _, rfl⟩
    · have := ih hmark
      simp only [List.length_cons]
      omega
    · simp

theorem level_le {mark : Literal × Nat} (hmark : mark ∈ trail.marked) : mark.2 ≤ trail.level := by
  simp only [marked, List.mem_append, List.mem_map] at hmark
  rcases hmark with ⟨_, _, rfl⟩ | hmark
  · exact Nat.zero_le _
  · exact (level_le_of_mem_markedLevels hmark).2

theorem mem_ground_iff : literal ∈ trail.ground ↔ (literal, 0) ∈ trail.marked := by
  simp only [marked, List.mem_append, List.mem_map]
  constructor
  · exact fun h => Or.inl ⟨literal, h, rfl⟩
  · rintro (⟨_, h, hpair⟩ | h)
    · cases hpair
      exact h
    · exact absurd (level_le_of_mem_markedLevels h).1 (by simp)

theorem pairwise_markedLevels (levels : List (List Literal)) :
    (markedLevels levels).Pairwise (fun a b => a.2 ≤ b.2) := by
  induction levels with
  | nil => exact .nil
  | cons top below ih =>
    rw [markedLevels, List.pairwise_append]
    refine ⟨ih, ?_, ?_⟩
    · rw [List.pairwise_map]
      exact List.pairwise_of_forall (fun _ _ => Nat.le_refl _)
    · intro a ha b hb
      obtain ⟨_, _, rfl⟩ := List.mem_map.1 hb
      have := (level_le_of_mem_markedLevels ha).2
      simp only
      omega

theorem pairwise_marked (trail : Trail) : trail.marked.Pairwise (fun a b => a.2 ≤ b.2) := by
  rw [marked, List.pairwise_append]
  refine ⟨?_, pairwise_markedLevels _, ?_⟩
  · rw [List.pairwise_map]
    exact List.pairwise_of_forall (fun _ _ => Nat.le_refl _)
  · intro a ha b _
    obtain ⟨_, _, rfl⟩ := List.mem_map.1 ha
    exact Nat.zero_le _

/-! ## Operations -/

@[simp]
theorem level_push (trail : Trail) (literal : Literal) :
    (trail.push literal).level = trail.level := by
  unfold push level
  split <;> simp_all

@[simp]
theorem marked_push (trail : Trail) (literal : Literal) :
    (trail.push literal).marked = trail.marked ++ [(literal, trail.level)] := by
  obtain ⟨ground, levels⟩ := trail
  cases levels <;> simp [push, marked, markedLevels, level]

theorem filled_push (hfilled : ∀ literals ∈ trail.levels.tail, literals ≠ []) :
    (trail.push literal).Filled := by
  obtain ⟨ground, levels⟩ := trail
  cases levels with
  | nil => simp [push, Filled]
  | cons top below => simpa [push, Filled] using hfilled

theorem Filled.push (hfilled : trail.Filled) : (trail.push literal).Filled :=
  filled_push fun literals h => hfilled literals (List.mem_of_mem_tail h)

@[simp]
theorem level_openLevel (trail : Trail) : trail.openLevel.level = trail.level + 1 := rfl

@[simp]
theorem marked_openLevel (trail : Trail) : trail.openLevel.marked = trail.marked := by
  simp [openLevel, marked, markedLevels]

theorem level_closeLevel (trail : Trail) : trail.closeLevel.2.level = trail.level - 1 := by
  unfold closeLevel level
  split <;> simp_all

/-- Closing a level keeps what is marked with a level below, and gives back the rest. -/
theorem marked_closeLevel (hlevel : 0 < trail.level) :
    trail.marked = trail.closeLevel.2.marked ++ trail.closeLevel.1.map (·, trail.level) := by
  obtain ⟨ground, levels⟩ := trail
  cases levels with
  | nil => exact absurd hlevel (by simp [level])
  | cons top below => simp [closeLevel, marked, markedLevels, level]

theorem Filled.closeLevel (hfilled : trail.Filled) : trail.closeLevel.2.Filled := by
  obtain ⟨ground, levels⟩ := trail
  cases levels with
  | nil => simpa [Trail.closeLevel] using hfilled
  | cons top below => exact fun literals h => hfilled literals (List.mem_cons_of_mem _ h)

def upTo (level : Nat) (marks : List (Literal × Nat)) : List (Literal × Nat) :=
  marks.filter (·.2 ≤ level)

theorem mem_upTo {level : Nat} {marks : List (Literal × Nat)} {mark : Literal × Nat} :
    mark ∈ upTo level marks ↔ mark ∈ marks ∧ mark.2 ≤ level := by simp [upTo]

theorem upTo_upTo {a b : Nat} (hab : a ≤ b) (marks : List (Literal × Nat)) :
    upTo a (upTo b marks) = upTo a marks := by
  unfold upTo
  rw [List.filter_filter]
  congr 1
  funext mark
  by_cases ha : mark.2 ≤ a
  · simp [ha, Nat.le_trans ha hab]
  · simp [ha]

theorem upTo_append (level : Nat) (marks more : List (Literal × Nat)) :
    upTo level (marks ++ more) = upTo level marks ++ upTo level more := List.filter_append ..

theorem upTo_eq_self {level : Nat} {marks : List (Literal × Nat)}
    (h : ∀ mark ∈ marks, mark.2 ≤ level) : upTo level marks = marks := by
  unfold upTo
  rw [List.filter_eq_self]
  simpa using h

theorem upTo_eq_nil {level : Nat} {marks : List (Literal × Nat)}
    (h : ∀ mark ∈ marks, level < mark.2) : upTo level marks = [] := by
  unfold upTo
  rw [List.filter_eq_nil_iff]
  intro mark hmark
  have := h mark hmark
  simp only [decide_eq_true_eq]
  omega

theorem upTo_prefix {marks : List (Literal × Nat)}
    (hsorted : marks.Pairwise (fun a b => a.2 ≤ b.2)) (level : Nat) : upTo level marks <+: marks := by
  induction marks with
  | nil => exact List.prefix_refl _
  | cons mark rest ih =>
    rw [List.pairwise_cons] at hsorted
    by_cases hmark : mark.2 ≤ level
    · have hcons : upTo level (mark :: rest) = mark :: upTo level rest := by simp [upTo, hmark]
      rw [hcons]
      exact List.cons_prefix_cons.2 ⟨rfl, ih hsorted.2⟩
    · have hnil : upTo level (mark :: rest) = [] := by
        apply upTo_eq_nil
        intro other hother
        rcases List.mem_cons.1 hother with rfl | hother
        · omega
        · have := hsorted.1 other hother
          omega
      rw [hnil]
      exact List.nil_prefix

theorem marked_closeLevel_upTo (hlevel : 0 < trail.level) :
    trail.closeLevel.2.marked = upTo (trail.level - 1) trail.marked := by
  rw [marked_closeLevel hlevel, upTo_append, upTo_eq_self, upTo_eq_nil, List.append_nil]
  · intro mark hmark
    obtain ⟨_, _, rfl⟩ := List.mem_map.1 hmark
    simp only
    omega
  · intro mark hmark
    have := level_le hmark
    rw [level_closeLevel] at this
    exact this

/-! ## Trails from their marks -/

theorem upTo_map_eq_self (literals : List Literal) {level bound : Nat} (hle : level ≤ bound) :
    upTo bound (literals.map (·, level)) = literals.map (·, level) := by
  refine upTo_eq_self fun mark hmark => ?_
  obtain ⟨_, _, rfl⟩ := List.mem_map.1 hmark
  exact hle

theorem upTo_map_eq_nil (literals : List Literal) {level bound : Nat} (hlt : bound < level) :
    upTo bound (literals.map (·, level)) = [] := by
  refine upTo_eq_nil fun mark hmark => ?_
  obtain ⟨_, _, rfl⟩ := List.mem_map.1 hmark
  exact hlt

theorem map_mark_injective (level : Nat) :
    Function.Injective (List.map ((·, level) : Literal → Literal × Nat)) := by
  intro literals literals' heq
  have hfst := congrArg (List.map Prod.fst) heq
  simpa [Function.comp_def] using hfst

theorem eq_of_markedLevels {levels levels' : List (List Literal)}
    (hlength : levels.length = levels'.length) (h : markedLevels levels = markedLevels levels') :
    levels = levels' := by
  induction levels generalizing levels' with
  | nil => exact (List.length_eq_zero_iff.1 hlength.symm).symm
  | cons top below ih =>
    obtain _ | ⟨top', below'⟩ := levels'
    · cases hlength
    · have hlength' : below.length = below'.length := Nat.succ.inj hlength
      rw [markedLevels, markedLevels, ← hlength'] at h
      -- the marks of the levels below are those with lower numbers
      have hbelow : ∀ levels : List (List Literal), levels.length = below.length →
          upTo below.length (markedLevels levels) = markedLevels levels := fun levels heq =>
        upTo_eq_self fun mark hmark => heq ▸ (level_le_of_mem_markedLevels hmark).2
      have hupTo := congrArg (upTo below.length) h
      rw [upTo_append, upTo_append, hbelow below rfl, hbelow below' hlength'.symm,
        upTo_map_eq_nil _ (Nat.lt_succ_self _), upTo_map_eq_nil _ (Nat.lt_succ_self _),
        List.append_nil, List.append_nil] at hupTo
      rw [hupTo] at h
      rw [ih hlength' hupTo, map_mark_injective _ (List.append_cancel_left h)]

theorem eq_of_marked {trail' : Trail} (hlevel : trail.level = trail'.level)
    (h : trail.marked = trail'.marked) : trail = trail' := by
  have hground : ∀ trail : Trail, upTo 0 trail.marked = trail.ground.map (·, 0) := by
    intro trail
    rw [marked, upTo_append, upTo_map_eq_self _ (Nat.le_refl 0), upTo_eq_nil, List.append_nil]
    exact fun mark hmark => (level_le_of_mem_markedLevels hmark).1
  have hsame := hground trail
  rw [h, hground trail'] at hsame
  have heq := map_mark_injective 0 hsame
  rw [marked, marked, heq] at h
  obtain ⟨ground, levels⟩ := trail
  obtain ⟨ground', levels'⟩ := trail'
  cases heq
  have hlevels : levels = levels' := eq_of_markedLevels hlevel (List.append_cancel_left h)
  rw [hlevels]

/-! ## The newest level -/

theorem Filled.level_le_size (hfilled : trail.Filled) : trail.level ≤ trail.marked.length := by
  obtain ⟨ground, levels⟩ := trail
  unfold Filled level at *
  simp only at hfilled ⊢
  have hlevels : levels.length ≤ (markedLevels levels).length := by
    induction levels with
    | nil => exact Nat.zero_le _
    | cons top below ih =>
      have hbelow := ih fun literals h => hfilled literals (List.mem_cons_of_mem _ h)
      have htop := List.length_pos_iff.2 (hfilled top List.mem_cons_self)
      simp only [markedLevels, List.length_append, List.length_map, List.length_cons]
      omega
  simp only [marked, List.length_append]
  omega

theorem Filled.exists_mark (hfilled : trail.Filled) {level : Nat} (hpos : 0 < level)
    (hle : level ≤ trail.level) : ∃ literal, (literal, level) ∈ trail.marked := by
  obtain ⟨ground, levels⟩ := trail
  unfold Filled Trail.level at *
  simp only at hfilled hle
  have hmark : ∃ literal, (literal, level) ∈ markedLevels levels := by
    induction levels with
    | nil => exact absurd hpos (Nat.not_lt.2 hle)
    | cons top below ih =>
      rw [markedLevels]
      rcases Nat.lt_or_eq_of_le hle with hlt | rfl
      · have hbelow := ih (fun literals h => hfilled literals (List.mem_cons_of_mem _ h))
          (Nat.le_of_lt_succ hlt)
        exact hbelow.imp fun _ hmem => List.mem_append_left _ hmem
      · obtain ⟨literal, hmem⟩ := List.exists_mem_of_ne_nil _ (hfilled top List.mem_cons_self)
        exact ⟨literal, List.mem_append_right _ (List.mem_map_of_mem hmem)⟩
  exact hmark.imp fun _ hmem => List.mem_append_right _ hmem

theorem Filled.exists_decision (hfilled : trail.Filled) (hlevel : 0 < trail.level) :
    ∃ decision, trail.decision? = some decision ∧ ∃ place : Nat,
      trail.marked[place]? = some (decision, trail.level) ∧
        ∀ (i : Nat) literal, trail.marked[i]? = some (literal, trail.level) → place ≤ i := by
  have hmarked := marked_closeLevel hlevel
  obtain ⟨decision, rest, hdecision, hclosed⟩ : ∃ decision rest,
      trail.decision? = some decision ∧ trail.closeLevel.1 = decision :: rest := by
    obtain ⟨ground, levels⟩ := trail
    cases levels with
    | nil => exact absurd hlevel (by simp [level])
    | cons top below =>
      have htop := hfilled top List.mem_cons_self
      cases top with
      | nil => exact absurd rfl htop
      | cons first rest => exact ⟨first, rest, rfl, rfl⟩
  refine ⟨decision, hdecision, trail.closeLevel.2.marked.length, ?_, fun i literal hmark => ?_⟩
  · rw [hmarked, List.getElem?_append_right (Nat.le_refl _), Nat.sub_self, hclosed]
    rfl
  · -- what stands before is of lower levels
    refine Nat.le_of_not_lt fun hlt => ?_
    rw [hmarked, List.getElem?_append_left hlt] at hmark
    have hle := level_le (List.mem_of_getElem? hmark)
    rw [level_closeLevel] at hle
    simp only at hle
    omega

theorem Filled.decision?_isSome (hfilled : trail.Filled) (hlevel : 0 < trail.level) :
    trail.decision?.isSome = true := by
  obtain ⟨decision, hdecision, _⟩ := hfilled.exists_decision hlevel
  rw [hdecision]
  rfl

theorem mem_top_iff : literal ∈ trail.top ↔ (literal, trail.level) ∈ trail.marked := by
  obtain ⟨ground, levels⟩ := trail
  cases levels with
  | nil => simp [top, marked, markedLevels, level]
  | cons first below =>
    simp only [top, marked, markedLevels, level, List.headD_cons, List.mem_append, List.mem_map,
      List.length_cons]
    constructor
    · exact fun hmem => Or.inr (Or.inr ⟨literal, hmem, rfl⟩)
    · rintro (⟨_, _, hground⟩ | hbelow | ⟨_, hmem, heq⟩)
      · cases hground
      · exact absurd (level_le_of_mem_markedLevels hbelow).2 (by simp)
      · cases heq
        exact hmem

end Satisfiability.Search.Trail
