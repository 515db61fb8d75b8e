import Satisfiability.Fault

/-!
# What an operation ensures

An operation on a state ends with a result and a state, or with a fault. `Step.Ensures` says which
results with their states, and which faults, are possible from a state. It is computed along an
operation by the rules here, one for each way to build an operation; the calls of named operations
are passed by `ensures_mono` with what is known of them. `Step.Ends` says the same with the states
that faults leave behind.
-/

namespace Satisfiability.Step

variable {σ α β : Type}

/-- From `s` the operation ends in a result and a state that satisfy `post`, or in a fault that
satisfies `fail`. -/
def Ensures (operation : Step σ α) (s : σ) (post : α → σ → Prop) (fail : Fault → Prop) : Prop :=
  match operation.run.run s with
  | (.ok a, t) => post a t
  | (.error fault, _) => fail fault

def never : Fault → Prop := fun _ => False

def anyFault : Fault → Prop := fun _ => True

theorem ensures_mono {operation : Step σ α} {s : σ} {post post' : α → σ → Prop}
    {fail fail' : Fault → Prop} (h : Ensures operation s post fail)
    (hpost : ∀ a t, post a t → post' a t) (hfail : ∀ fault, fail fault → fail' fault) :
    Ensures operation s post' fail' := by
  unfold Ensures at h ⊢
  split at h
  · exact hpost _ _ h
  · exact hfail _ h

/-- Without faults of its own an operation ensures the same under any condition on faults. -/
theorem ensures_of_never {operation : Step σ α} {s : σ} {post post' : α → σ → Prop}
    {fail : Fault → Prop} (h : Ensures operation s post never)
    (hpost : ∀ a t, post a t → post' a t) : Ensures operation s post' fail :=
  ensures_mono h hpost fun _ hfalse => hfalse.elim

theorem ensures_and {operation : Step σ α} {s : σ} {post post' : α → σ → Prop}
    {fail fail' : Fault → Prop} (h : Ensures operation s post fail)
    (h' : Ensures operation s post' fail') :
    Ensures operation s (fun a t => post a t ∧ post' a t) (fun f => fail f ∧ fail' f) := by
  unfold Ensures at h h' ⊢
  split at h
  · rename_i hrun
    rw [hrun] at h'
    exact ⟨h, h'⟩
  · rename_i hrun
    rw [hrun] at h'
    exact ⟨h, h'⟩

theorem ensures_ok {operation : Step σ α} {s t : σ} {a : α} {post : α → σ → Prop}
    {fail : Fault → Prop} (h : Ensures operation s post fail)
    (hrun : operation.run.run s = (.ok a, t)) : post a t := by
  unfold Ensures at h
  rw [hrun] at h
  exact h

theorem ensures_error {operation : Step σ α} {s t : σ} {fault : Fault} {post : α → σ → Prop}
    {fail : Fault → Prop} (h : Ensures operation s post fail)
    (hrun : operation.run.run s = (.error fault, t)) : fail fault := by
  unfold Ensures at h
  rw [hrun] at h
  exact h

theorem ensures_run (operation : Step σ α) (s : σ) :
    Ensures operation s (fun a t => operation.run.run s = (.ok a, t)) anyFault := by
  unfold Ensures
  rcases operation.run.run s with ⟨x, t⟩
  cases x
  · exact trivial
  · rfl

theorem ensures_and_run {operation : Step σ α} {s : σ} {post : α → σ → Prop} {fail : Fault → Prop}
    (h : Ensures operation s post fail) :
    Ensures operation s (fun a t => post a t ∧ operation.run.run s = (.ok a, t)) fail :=
  ensures_mono (ensures_and h (ensures_run operation s)) (fun _ _ => id) fun _ => And.left

theorem run_of_ensures {operation : Step σ α} {s : σ} {post : α → σ → Prop}
    (h : Ensures operation s post never) :
    ∃ a t, operation.run.run s = (.ok a, t) ∧ post a t := by
  unfold Ensures at h
  split at h
  · rename_i a t hrun
    exact ⟨a, t, hrun, h⟩
  · exact h.elim

theorem exists_ok {ε : Type} {result : Except ε α} {p : α → Bool}
    (h : result.toOption.any p) : ∃ a, result = .ok a ∧ p a := by
  cases result with
  | ok a => exact ⟨a, rfl, h⟩
  | error fault => exact absurd h (by simp [Except.toOption])

section rules

variable {s : σ} {post : α → σ → Prop} {fail : Fault → Prop}

@[simp]
theorem ensures_pure {a : α} : Ensures (pure a : Step σ α) s post fail ↔ post a s := Iff.rfl

@[simp]
theorem ensures_throw {fault : Fault} :
    Ensures (throw fault : Step σ α) s post fail ↔ fail fault := Iff.rfl

theorem run_bind {operation : Step σ α} {next : α → Step σ β} :
    (operation >>= next).run.run s =
      match operation.run.run s with
      | (.ok a, t) => (next a).run.run t
      | (.error fault, t) => (.error fault, t) := by
  change (match operation.run.run s with | (x, t) => ExceptT.bindCont next x t) = _
  rcases operation.run.run s with ⟨x, t⟩
  cases x <;> rfl

theorem run_bind_ok {operation : Step σ α} {next : α → Step σ β} {a : α} {t : σ}
    (h : operation.run.run s = (.ok a, t)) : (operation >>= next).run.run s = (next a).run.run t := by
  rw [run_bind, h]

theorem run_bind_error {operation : Step σ α} {next : α → Step σ β} {fault : Fault} {t : σ}
    (h : operation.run.run s = (.error fault, t)) :
    (operation >>= next).run.run s = (.error fault, t) := by
  rw [run_bind, h]

@[simp]
theorem ensures_bind {operation : Step σ α} {next : α → Step σ β} {post : β → σ → Prop} :
    Ensures (operation >>= next) s post fail ↔
      Ensures operation s (fun a t => Ensures (next a) t post fail) fail := by
  unfold Ensures
  rw [run_bind]
  rcases operation.run.run s with ⟨x, t⟩
  cases x <;> rfl

@[simp]
theorem ensures_map {operation : Step σ α} {f : α → β} {post : β → σ → Prop} :
    Ensures (f <$> operation) s post fail ↔
      Ensures operation s (fun a t => post (f a) t) fail := by
  rw [← bind_pure_comp, ensures_bind]
  rfl

@[simp]
theorem ensures_discard {operation : Step σ α} {post : PUnit → σ → Prop} :
    Ensures (discard operation) s post fail ↔
      Ensures operation s (fun _ t => post ⟨⟩ t) fail := ensures_map

@[simp]
theorem ensures_get {post : σ → σ → Prop} :
    Ensures (get : Step σ σ) s post fail ↔ post s s := Iff.rfl

@[simp]
theorem ensures_set {t : σ} {post : PUnit → σ → Prop} :
    Ensures (set t : Step σ PUnit) s post fail ↔ post ⟨⟩ t := Iff.rfl

@[simp]
theorem ensures_modify {f : σ → σ} {post : PUnit → σ → Prop} :
    Ensures (modify f : Step σ PUnit) s post fail ↔ post ⟨⟩ (f s) := Iff.rfl

@[simp]
theorem ensures_modifyGet {f : σ → α × σ} :
    Ensures (modifyGet f : Step σ α) s post fail ↔ post (f s).1 (f s).2 := Iff.rfl

@[simp]
theorem ensures_forM_nil {f : α → Step σ PUnit} {post : PUnit → σ → Prop} :
    Ensures (List.forM [] f) s post fail ↔ post ⟨⟩ s := Iff.rfl

@[simp]
theorem ensures_forM_cons {f : α → Step σ PUnit} {a : α} {rest : List α}
    {post : PUnit → σ → Prop} :
    Ensures (List.forM (a :: rest) f) s post fail ↔
      Ensures (f a) s (fun _ t => Ensures (List.forM rest f) t post fail) fail :=
  ensures_bind

end rules

/-! ## What a fault leaves behind -/

/-- From `s` the operation ends in a result and a state that satisfy `post`, or in a fault and a
state that satisfy `fail`. -/
def Ends (operation : Step σ α) (s : σ) (post : α → σ → Prop) (fail : Fault → σ → Prop) : Prop :=
  match operation.run.run s with
  | (.ok a, t) => post a t
  | (.error fault, t) => fail fault t

theorem ends_mono {operation : Step σ α} {s : σ} {post post' : α → σ → Prop}
    {fail fail' : Fault → σ → Prop} (h : Ends operation s post fail)
    (hpost : ∀ a t, post a t → post' a t) (hfail : ∀ fault t, fail fault t → fail' fault t) :
    Ends operation s post' fail' := by
  unfold Ends at h ⊢
  split at h
  · exact hpost _ _ h
  · exact hfail _ _ h

theorem ends_and {operation : Step σ α} {s : σ} {post post' : α → σ → Prop}
    {fail fail' : Fault → σ → Prop} (h : Ends operation s post fail)
    (h' : Ends operation s post' fail') :
    Ends operation s (fun a t => post a t ∧ post' a t)
      fun fault t => fail fault t ∧ fail' fault t := by
  unfold Ends at h h' ⊢
  split at h
  · rename_i hrun
    rw [hrun] at h'
    exact ⟨h, h'⟩
  · rename_i hrun
    rw [hrun] at h'
    exact ⟨h, h'⟩

theorem ends_of_never {operation : Step σ α} {s : σ} {post : α → σ → Prop}
    {fail : Fault → σ → Prop} (h : Ensures operation s post never) : Ends operation s post fail := by
  unfold Ensures at h
  unfold Ends
  split at h
  · exact h
  · exact h.elim

theorem ends_of_ensures {operation : Step σ α} {s : σ} {post post' : α → σ → Prop}
    {fail : Fault → σ → Prop} (h : Ensures operation s post never)
    (hpost : ∀ a t, post a t → post' a t) : Ends operation s post' fail :=
  ends_of_never (ensures_of_never h hpost)

theorem ensures_of_ends {operation : Step σ α} {s : σ} {post : α → σ → Prop}
    {fail : Fault → σ → Prop} {fail' : Fault → Prop} (h : Ends operation s post fail)
    (hfail : ∀ fault t, fail fault t → fail' fault) : Ensures operation s post fail' := by
  unfold Ends at h
  unfold Ensures
  split at h
  · exact h
  · exact hfail _ _ h

theorem run_of_ends {operation : Step σ α} {s : σ} {post : α → σ → Prop} {fail : Fault → σ → Prop}
    (h : Ends operation s post fail) :
    (∃ a t, operation.run.run s = (.ok a, t) ∧ post a t) ∨
      ∃ fault t, operation.run.run s = (.error fault, t) ∧ fail fault t := by
  unfold Ends at h
  split at h
  · rename_i a t hrun
    exact Or.inl ⟨a, t, hrun, h⟩
  · rename_i fault t hrun
    exact Or.inr ⟨fault, t, hrun, h⟩

theorem ends_iff {operation : Step σ α} {s : σ} {p : σ → Prop} :
    Ends operation s (fun _ => p) (fun _ => p) ↔ p (operation.run.run s).2 := by
  unfold Ends
  rcases operation.run.run s with ⟨x, t⟩
  cases x <;> rfl

theorem ends_run (operation : Step σ α) (s : σ) :
    Ends operation s (fun a t => operation.run.run s = (.ok a, t))
      fun fault t => operation.run.run s = (.error fault, t) := by
  unfold Ends
  rcases operation.run.run s with ⟨x, t⟩
  cases x <;> rfl

/-- An operation that is known to end with a result leaves what follows to be shown. -/
theorem ends_of_run {operation : Step σ α} {s : σ} (a : α) {post : α → σ → Prop}
    {fail : Fault → σ → Prop} (hrun : (operation.run.run s).1.toOption = some a)
    (hpost : post a (operation.run.run s).2) : Ends operation s post fail := by
  unfold Ends
  rcases hresult : operation.run.run s with ⟨result, t⟩
  rw [hresult] at hrun hpost
  cases result with
  | ok b =>
    obtain rfl : b = a := Option.some.inj hrun
    exact hpost
  | error fault => cases hrun

theorem ends_ok {operation : Step σ α} {s t : σ} {a : α} {post : α → σ → Prop}
    {fail : Fault → σ → Prop} (h : Ends operation s post fail)
    (hrun : operation.run.run s = (.ok a, t)) : post a t := by
  unfold Ends at h
  rw [hrun] at h
  exact h

theorem ends_error {operation : Step σ α} {s t : σ} {fault : Fault} {post : α → σ → Prop}
    {fail : Fault → σ → Prop} (h : Ends operation s post fail)
    (hrun : operation.run.run s = (.error fault, t)) : fail fault t := by
  unfold Ends at h
  rw [hrun] at h
  exact h

theorem ends_of_error {operation : Step σ α} {s t : σ} {fault : Fault} {post : α → σ → Prop}
    {fail : Fault → σ → Prop} (hrun : operation.run.run s = (.error fault, t)) (h : fail fault t) :
    Ends operation s post fail := by
  unfold Ends
  rw [hrun]
  exact h

theorem error_of_ends {operation : Step σ α} {s : σ} {fail : Fault → σ → Prop}
    (h : Ends operation s (fun _ _ => False) fail) :
    ∃ fault t, operation.run.run s = (.error fault, t) ∧ fail fault t := by
  unfold Ends at h
  split at h
  · exact h.elim
  · rename_i fault t hrun
    exact ⟨fault, t, hrun, h⟩

section ends

variable {s : σ} {post : α → σ → Prop} {fail : Fault → σ → Prop}

@[simp]
theorem ends_pure {a : α} : Ends (pure a : Step σ α) s post fail ↔ post a s := Iff.rfl

@[simp]
theorem ends_throw {fault : Fault} :
    Ends (throw fault : Step σ α) s post fail ↔ fail fault s := Iff.rfl

@[simp]
theorem ends_bind {operation : Step σ α} {next : α → Step σ β} {post : β → σ → Prop} :
    Ends (operation >>= next) s post fail ↔
      Ends operation s (fun a t => Ends (next a) t post fail) fail := by
  unfold Ends
  rw [run_bind]
  rcases operation.run.run s with ⟨x, t⟩
  cases x <;> rfl

@[simp]
theorem ends_discard {operation : Step σ α} {post : PUnit → σ → Prop} :
    Ends (discard operation) s post fail ↔ Ends operation s (fun _ t => post ⟨⟩ t) fail := by
  unfold discard
  change Ends ((fun _ => PUnit.unit) <$> operation) s post fail ↔ _
  rw [← bind_pure_comp, ends_bind]
  rfl

@[simp]
theorem ends_get {post : σ → σ → Prop} : Ends (get : Step σ σ) s post fail ↔ post s s := Iff.rfl

@[simp]
theorem ends_set {t : σ} {post : PUnit → σ → Prop} :
    Ends (set t : Step σ PUnit) s post fail ↔ post ⟨⟩ t := Iff.rfl

@[simp]
theorem ends_modify {f : σ → σ} {post : PUnit → σ → Prop} :
    Ends (modify f : Step σ PUnit) s post fail ↔ post ⟨⟩ (f s) := Iff.rfl

@[simp]
theorem ends_forM_nil {f : α → Step σ PUnit} {post : PUnit → σ → Prop} :
    Ends (List.forM [] f) s post fail ↔ post ⟨⟩ s := Iff.rfl

@[simp]
theorem ends_forM_cons {f : α → Step σ PUnit} {a : α} {rest : List α} {post : PUnit → σ → Prop} :
    Ends (List.forM (a :: rest) f) s post fail ↔
      Ends (f a) s (fun _ t => Ends (List.forM rest f) t post fail) fail :=
  ends_bind

end ends

end Satisfiability.Step
