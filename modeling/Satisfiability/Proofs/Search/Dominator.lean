import Mathlib.Data.List.Nodup
import Mathlib.Data.List.Perm.Subperm
import Satisfiability.Search.Dominator

/-!
# Immediate dominators

What it is to dominate a node, said by the paths of a graph (`Digraph.Leads`, `Digraph.Dominates`),
and that the computation finds it: a search for reachable nodes that adds nothing has found them all
(`Digraph.mem_reachable`), and of the strict dominators of a node one alone is dominated by the
others (`Digraph.givesImmediateDominators`).
-/

namespace Satisfiability.Search.Digraph

variable {Node : Type} {graph : Digraph Node} {allowed allowed' : Node → Prop} {a b c root node via : Node}

/-- A path leads from one node to another through allowed nodes, of which both are. -/
inductive Leads (graph : Digraph Node) (allowed : Node → Prop) (a : Node) : Node → Prop
  | refl (ha : allowed a) : Leads graph allowed a a
  | step {b c : Node} (h : Leads graph allowed a b) (harrow : (b, c) ∈ graph.arrows)
    (hc : allowed c) : Leads graph allowed a c

/-- Every path from the root to a node passes through another one. -/
def Dominates (graph : Digraph Node) (root via node : Node) : Prop :=
  ¬ graph.Leads (· ≠ via) root node

/-- Of the other nodes that dominate a node which can be reached, this one is dominated by all. -/
structure ImmediatelyDominates (graph : Digraph Node) (root via node : Node) : Prop where
  reached : graph.Leads (fun _ => True) root node
  ne : via ≠ node
  dominates : graph.Dominates root via node
  last : ∀ other ≠ node, graph.Dominates root other node → graph.Dominates root other via

/-- A function that gives the immediate dominator of each node that has one. -/
def GivesImmediateDominators (immediate : Digraph Node → Node → Node → Option Node) : Prop :=
  ∀ graph root node via, immediate graph root node = some via ↔ graph.ImmediatelyDominates root via node

/-! ## Paths -/

theorem Leads.allowed_left (h : graph.Leads allowed a b) : allowed a := by
  induction h with
  | refl ha => exact ha
  | step _ _ _ ih => exact ih

theorem Leads.allowed_right (h : graph.Leads allowed a b) : allowed b := by
  cases h with
  | refl ha => exact ha
  | step _ _ hb => exact hb

theorem Leads.mono (h : graph.Leads allowed a b) (hallowed : ∀ node, allowed node → allowed' node) :
    graph.Leads allowed' a b := by
  induction h with
  | refl ha => exact .refl (hallowed _ ha)
  | step _ harrow hc ih => exact .step ih harrow (hallowed _ hc)

theorem Leads.trans (h : graph.Leads allowed a b) (h' : graph.Leads allowed b c) :
    graph.Leads allowed a c := by
  induction h' with
  | refl => exact h
  | step _ harrow hc ih => exact .step ih harrow hc

theorem Leads.arrow (h : graph.Leads allowed a b) (harrow : (b, c) ∈ graph.arrows)
    (h' : graph.Leads allowed c node) : graph.Leads allowed a node :=
  (Leads.step h harrow h'.allowed_left).trans h'

theorem not_leads_avoiding : ¬ graph.Leads (· ≠ via) root via := fun h => h.allowed_right rfl

theorem Leads.before (hne : a ≠ b) (h : graph.Leads (fun _ => True) root node) :
    graph.Leads (fun other => other ≠ a ∧ other ≠ b) root node ∨
      graph.Leads (· ≠ b) root a ∨ graph.Leads (· ≠ a) root b := by
  -- by induction on the path, up to the first of the two on it
  induction h with
  | refl =>
    by_cases ha : root = a
    · exact Or.inr (Or.inl (ha ▸ .refl (ha ▸ hne)))
    · by_cases hb : root = b
      · exact Or.inr (Or.inr (hb ▸ .refl (hb ▸ Ne.symm hne)))
      · exact Or.inl (.refl ⟨ha, hb⟩)
  | @step c d _ harrow _ ih =>
    refine ih.elim (fun havoids => ?_) Or.inr
    -- the path met neither so far, and may meet one of them now
    by_cases ha : d = a
    · subst ha
      exact Or.inr (Or.inl (.step (havoids.mono fun _ => And.right) harrow hne))
    · by_cases hb : d = b
      · subst hb
        exact Or.inr (Or.inr (.step (havoids.mono fun _ => And.left) harrow (Ne.symm hne)))
      · exact Or.inl (.step havoids harrow ⟨ha, hb⟩)

theorem Dominates.antisymm (hab : graph.Dominates root a b) (hba : graph.Dominates root b a)
    (h : graph.Leads (fun _ => True) root a) : a = b := by
  by_contra hne
  rcases h.before hne with havoids | hleads | hleads
  · exact havoids.allowed_right.1 rfl
  · exact hba hleads
  · exact hab hleads

theorem Dominates.reached (h : graph.Dominates root via node)
    (hnode : graph.Leads (fun _ => True) root node) : graph.Leads (fun _ => True) root via := by
  by_contra hnot
  -- a node that is not reached is on no path
  have havoids : ∀ other, graph.Leads (fun _ => True) root other → graph.Leads (· ≠ via) root other := by
    intro other hother
    induction hother with
    | refl => exact .refl fun heq => hnot (heq ▸ .refl trivial)
    | step hb harrow _ ih => exact .step ih harrow fun heq => hnot (heq ▸ .step hb harrow trivial)
  exact h (havoids node hnode)

theorem ImmediatelyDominates.unique (h : graph.ImmediatelyDominates root a node)
    (h' : graph.ImmediatelyDominates root b node) : a = b :=
  (h'.last a h.ne h.dominates).antisymm (h.last b h'.ne h'.dominates) (h.dominates.reached h.reached)

/-! ## Nodes that can be reached -/

section search

variable [DecidableEq Node] {allows : Node → Bool} {seen : List Node} {rounds : Nat}

/-- No arrow leads from the nodes seen to an allowed node that was not. -/
def Closed (graph : Digraph Node) (allows : Node → Bool) (seen : List Node) : Prop :=
  ∀ a b, (a, b) ∈ graph.arrows → a ∈ seen → allows b = true → b ∈ seen

theorem extend_cons (rest : List (Node × Node)) :
    (mk ((a, b) :: rest)).extend allows seen = (mk rest).extend allows
      (if seen.contains a && allows b && !seen.contains b then b :: seen else seen) := rfl

theorem length_le_extend (graph : Digraph Node) (allows : Node → Bool) (seen : List Node) :
    seen.length ≤ (graph.extend allows seen).length := by
  obtain ⟨arrows⟩ := graph
  induction arrows generalizing seen with
  | nil => exact Nat.le_refl _
  | cons arrow rest ih =>
    rw [extend_cons]
    split
    · exact Nat.le_trans (Nat.le_succ _) (ih (arrow.2 :: seen))
    · exact ih seen

theorem closed_of_length_extend (h : (graph.extend allows seen).length = seen.length) :
    graph.Closed allows seen := by
  obtain ⟨arrows⟩ := graph
  induction arrows generalizing seen with
  | nil => exact fun a b harrow => absurd harrow List.not_mem_nil
  | cons arrow rest ih =>
    rw [extend_cons] at h
    split at h
    · have hle := length_le_extend (mk rest) allows (arrow.2 :: seen)
      rw [h, List.length_cons] at hle
      omega
    · rename_i hnot
      intro a b harrow ha hb
      rcases List.mem_cons.1 harrow with rfl | harrow
      · by_contra hnew
        exact hnot (by simp [ha, hb, hnew])
      · exact ih h a b harrow ha hb

/-- What holds of the nodes seen at first, and is kept with each node added, holds in the end. -/
theorem extend_induction {P : List Node → Prop} (hseen : P seen)
    (hadd : ∀ seen a b, P seen → (a, b) ∈ graph.arrows → a ∈ seen → allows b = true → b ∉ seen →
      P (b :: seen)) : P (graph.extend allows seen) := by
  obtain ⟨arrows⟩ := graph
  induction arrows generalizing seen with
  | nil => exact hseen
  | cons arrow rest ih =>
    have hrest : ∀ seen a b, P seen → (a, b) ∈ rest → a ∈ seen → allows b = true → b ∉ seen →
        P (b :: seen) :=
      fun seen a b h harrow => hadd seen a b h (List.mem_cons_of_mem _ harrow)
    rw [extend_cons]
    split
    · rename_i hadds
      simp only [Bool.and_eq_true, Bool.not_eq_true', decide_eq_true_eq, decide_eq_false_iff_not,
        List.contains_eq_mem] at hadds
      obtain ⟨⟨ha, hb⟩, hnew⟩ := hadds
      exact ih (hadd seen arrow.1 arrow.2 hseen List.mem_cons_self ha hb hnew) hrest
    · exact ih hseen hrest

theorem saturate_induction {P : List Node → Prop} (hseen : P seen)
    (hadd : ∀ seen a b, P seen → (a, b) ∈ graph.arrows → a ∈ seen → allows b = true → b ∉ seen →
      P (b :: seen)) (rounds : Nat) : P (graph.saturate allows rounds seen) := by
  induction rounds generalizing seen with
  | zero => exact hseen
  | succ rounds ih =>
    unfold saturate
    dsimp only
    split
    · exact hseen
    · exact ih (extend_induction hseen hadd)

/-- The nodes seen are distinct, and each but the root is at the end of an arrow. -/
structure Found (graph : Digraph Node) (root : Node) (seen : List Node) : Prop where
  nodup : seen.Nodup
  subset : seen ⊆ root :: graph.arrows.map Prod.snd

theorem Found.extend (h : graph.Found root seen) : graph.Found root (graph.extend allows seen) := by
  refine extend_induction h fun seen a b h harrow _ _ hnew => ⟨List.nodup_cons.2 ⟨hnew, h.nodup⟩, ?_⟩
  rw [List.cons_subset]
  exact ⟨List.mem_cons_of_mem _ (List.mem_map.2 ⟨(a, b), harrow, rfl⟩), h.subset⟩

theorem Found.closed_saturate (h : graph.Found root seen)
    (hrounds : graph.arrows.length < rounds + seen.length) :
    graph.Closed allows (graph.saturate allows rounds seen) := by
  induction rounds generalizing seen with
  | zero =>
    -- all ends of arrows have been seen
    intro a b harrow _ _
    have hperm := (List.subperm_of_subset h.nodup h.subset).perm_of_length_le (by simp; omega)
    exact hperm.mem_iff.2 (List.mem_cons_of_mem _ (List.mem_map.2 ⟨(a, b), harrow, rfl⟩))
  | succ rounds ih =>
    unfold saturate
    dsimp only
    split
    · rename_i hlength
      exact closed_of_length_extend hlength
    · rename_i hlength
      have hle := length_le_extend graph allows seen
      exact ih h.extend (by omega)

/-- The search finds the nodes that can be reached, and no others. -/
theorem mem_reachable :
    node ∈ graph.reachable allows root ↔ graph.Leads (fun other => allows other = true) root node := by
  unfold reachable
  by_cases hroot : allows root = true
  · rw [if_pos hroot]
    constructor
    · have hleads : ∀ other ∈ graph.saturate allows graph.arrows.length [root],
          graph.Leads (fun other => allows other = true) root other := saturate_induction
        (P := fun seen => ∀ other ∈ seen, graph.Leads (fun other => allows other = true) root other)
        (fun other hother => by rw [List.mem_singleton.1 hother]; exact .refl hroot)
        (fun seen a b h harrow ha hb _ other hother => ?_) graph.arrows.length
      · exact hleads node
      · rcases List.mem_cons.1 hother with rfl | hother
        · exact .step (h a ha) harrow hb
        · exact h other hother
    · -- the nodes found are closed under arrows, and a path never leaves them
      intro h
      have hfound : graph.Found root [root] := ⟨List.nodup_singleton _, by simp⟩
      have hclosed : graph.Closed allows (graph.saturate allows graph.arrows.length [root]) :=
        hfound.closed_saturate (by simp)
      have hmem : root ∈ graph.saturate allows graph.arrows.length [root] :=
        saturate_induction (P := (root ∈ ·)) List.mem_cons_self
          (fun _ _ _ h _ _ _ _ => List.mem_cons_of_mem _ h) _
      induction h with
      | refl => exact hmem
      | step _ harrow hc ih => exact hclosed _ _ harrow ih hc
  · rw [if_neg hroot]
    exact ⟨fun h => absurd h List.not_mem_nil, fun h => absurd h.allowed_left hroot⟩

theorem dominates_iff : graph.dominates root via node = true ↔ graph.Dominates root via node := by
  unfold dominates Dominates
  simp only [Bool.or_eq_true, beq_iff_eq, Bool.not_eq_true', List.contains_eq_mem,
    decide_eq_false_iff_not, mem_reachable, bne_iff_ne, ne_eq]
  refine ⟨fun h => h.elim (fun heq => heq ▸ not_leads_avoiding) id, Or.inr⟩

theorem mem_nodes_of_reached (h : graph.Leads (fun _ => True) root node) : node ∈ graph.nodes root := by
  unfold nodes
  rw [List.mem_eraseDups]
  cases h with
  | refl => exact List.mem_cons_self
  | @step b _ _ harrow =>
    exact List.mem_cons_of_mem _ (List.mem_flatMap.2 ⟨(b, node), harrow, by simp⟩)

theorem mem_strictDominators (h : graph.Leads (fun _ => True) root node) :
    via ∈ graph.strictDominators root node ↔ via ≠ node ∧ graph.Dominates root via node := by
  unfold strictDominators
  rw [List.mem_filter, Bool.and_eq_true, bne_iff_ne, dominates_iff]
  exact ⟨And.right, fun hvia => ⟨mem_nodes_of_reached (hvia.2.reached h), hvia⟩⟩

theorem immediatelyDominates_iff (h : graph.Leads (fun _ => True) root node) :
    graph.ImmediatelyDominates root via node ↔ via ∈ graph.strictDominators root node ∧
      ((graph.strictDominators root node).all fun other => graph.dominates root other via) = true := by
  simp only [List.all_eq_true, mem_strictDominators h, dominates_iff, and_imp]
  exact ⟨fun him => ⟨⟨him.ne, him.dominates⟩, him.last⟩,
    fun ⟨⟨hne, hdominates⟩, hlast⟩ => ⟨h, hne, hdominates, hlast⟩⟩

theorem givesImmediateDominators :
    GivesImmediateDominators fun graph : Digraph Node => graph.immediateDominator? := by
  intro graph root node via
  have hreached : (graph.reachable (fun _ => true) root).contains node = true ↔
      graph.Leads (fun _ => True) root node := by
    simp [List.contains_eq_mem, mem_reachable]
  change graph.immediateDominator? root node = some via ↔ _
  unfold immediateDominator?
  split
  · rename_i hcontains
    have h := hreached.1 hcontains
    constructor
    · intro hfind
      exact (immediatelyDominates_iff h).2
        ⟨List.mem_of_find?_eq_some hfind, by simpa only using List.find?_some hfind⟩
    · -- one is found, since there is one, and there is no other
      intro hvia
      obtain ⟨hmem, hall⟩ := (immediatelyDominates_iff h).1 hvia
      obtain ⟨found, hfind⟩ : ∃ found, ((graph.strictDominators root node).find? fun last =>
          (graph.strictDominators root node).all fun other => graph.dominates root other last) =
            some found := by
        rw [← Option.isSome_iff_exists, List.find?_isSome]
        exact ⟨via, hmem, hall⟩
      have hfound := (immediatelyDominates_iff h).2
        ⟨List.mem_of_find?_eq_some hfind, by simpa only using List.find?_some hfind⟩
      rw [hvia.unique hfound]
      exact hfind
  · rename_i hcontains
    exact ⟨fun h => absurd h (by simp), fun h => absurd (hreached.2 h.reached) hcontains⟩

end search

end Satisfiability.Search.Digraph
