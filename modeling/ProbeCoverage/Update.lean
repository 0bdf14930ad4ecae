import ProbeCoverage.Fault

/-!
# Updates

An update changes a state and answers, or fails. A failing update too has a final state: the one it
had reached.
-/

namespace ProbeCoverage

abbrev Update (σ α : Type) := EStateM Fault σ α

namespace Update

variable {σ α : Type}

/-- Answers or fails, and changes nothing. -/
def ofExcept : Except Fault α → Update σ α
  | .ok a => pure a
  | .error e => throw e

instance : MonadLift (Except Fault) (EStateM Fault σ) := ⟨ofExcept⟩

def answer (u : Update σ α) (s : σ) : Except Fault α :=
  match u.run s with
  | .ok a _ => .ok a
  | .error e _ => .error e

/-- The final state alone, after an answer or a failure. -/
def final (u : Update σ α) (s : σ) : σ :=
  match u.run s with
  | .ok _ s => s
  | .error _ s => s

theorem exists_run_of_answer {u : Update σ α} {s : σ} {a : α} (h : u.answer s = .ok a) :
    ∃ s', u.run s = .ok a s' := by
  rw [answer] at h
  cases hrun : u.run s with
  | ok b t =>
    rw [hrun] at h
    cases h
    exact ⟨t, rfl⟩
  | error e t =>
    rw [hrun] at h
    cases h

theorem exists_run_of_answer_error {u : Update σ α} {s : σ} {e : Fault}
    (h : u.answer s = .error e) : ∃ s', u.run s = .error e s' := by
  rw [answer] at h
  cases hrun : u.run s with
  | ok a t =>
    rw [hrun] at h
    cases h
  | error f t =>
    rw [hrun] at h
    cases h
    exact ⟨t, rfl⟩

@[simp] theorem run_throw (e : Fault) (s : σ) :
    (throw e : Update σ α).run s = .error e s := rfl

@[simp] theorem run_ofExcept_ok (a : α) (s : σ) : (ofExcept (.ok a)).run s = .ok a s := rfl

@[simp] theorem run_ofExcept_error (e : Fault) (s : σ) :
    (ofExcept (.error e : Except Fault α)).run s = .error e s := rfl

@[simp] theorem run_liftM_ok (a : α) (s : σ) :
    (liftM (Except.ok a : Except Fault α) : Update σ α).run s = .ok a s := rfl

@[simp] theorem run_liftM_error (e : Fault) (s : σ) :
    (liftM (Except.error e : Except Fault α) : Update σ α).run s = .error e s := rfl

theorem run_discard (u : Update σ α) (s : σ) :
    (discard u : Update σ Unit).run s = match u.run s with
      | .ok _ s' => .ok () s'
      | .error e s' => .error e s' := by
  have hbind : (discard u : Update σ Unit) = u >>= fun _ ↦ pure () := by
    rw [bind_pure_comp]
    rfl
  rw [hbind, EStateM.run_bind]
  cases u.run s <;> rfl

theorem discard_eq_ok_iff {u : Update σ α} {s s' : σ} :
    (discard u : Update σ Unit).run s = .ok () s' ↔ ∃ a, u.run s = .ok a s' := by
  rw [run_discard]
  cases u.run s with
  | ok a t => simp
  | error e t => simp

theorem run_bind_eq_ok_iff {β : Type} {u : Update σ α} {f : α → Update σ β} {s s' : σ} {b : β} :
    (u >>= f).run s = .ok b s' ↔ ∃ a t, u.run s = .ok a t ∧ (f a).run t = .ok b s' := by
  rw [EStateM.run_bind]
  constructor
  · intro h
    cases hu : u.run s with
    | error e t =>
      rw [hu] at h
      cases h
    | ok a t =>
      rw [hu] at h
      exact ⟨a, t, rfl, h⟩
  · rintro ⟨a, t, hu, h⟩
    rw [hu]
    exact h

theorem run_bind_eq_error_iff {β : Type} {u : Update σ α} {f : α → Update σ β} {s t : σ}
    {e : Fault} : (u >>= f).run s = .error e t ↔
      u.run s = .error e t ∨ ∃ a s', u.run s = .ok a s' ∧ (f a).run s' = .error e t := by
  rw [EStateM.run_bind]
  constructor
  · intro h
    cases hu : u.run s with
    | error e' s' =>
      rw [hu] at h
      cases h
      exact .inl rfl
    | ok a s' =>
      rw [hu] at h
      exact .inr ⟨a, s', rfl, h⟩
  · rintro (hu | ⟨a, s', hu, h⟩)
    · rw [hu]
    · rw [hu]
      exact h

theorem run_mapM_cons_eq_ok_iff {β : Type} {f : β → Update σ α} {b : β} {bs : List β} {s s' : σ}
    {as : List α} : ((b :: bs).mapM f).run s = .ok as s' ↔
      ∃ a t as', (f b).run s = .ok a t ∧ (bs.mapM f).run t = .ok as' s' ∧ as = a :: as' := by
  rw [List.mapM_cons]
  simp only [run_bind_eq_ok_iff, EStateM.run_pure, EStateM.Result.ok.injEq]
  constructor
  · rintro ⟨a, t, ha, as', t', has, rfl, rfl⟩
    exact ⟨a, t, as', ha, has, rfl⟩
  · rintro ⟨a, t, as', ha, has, rfl⟩
    exact ⟨a, t, ha, as', s', has, rfl, rfl⟩

/-- Updates for their effect only: the answers do not matter. -/
theorem run_forM_discard {β : Type} (f : β → Update σ α) (bs : List β) (s : σ) :
    (bs.forM fun b ↦ (discard (f b) : Update σ Unit)).run s =
      match (bs.mapM f).run s with
      | .ok _ s' => .ok () s'
      | .error e s' => .error e s' := by
  induction bs generalizing s with
  | nil => rfl
  | cons b bs ih =>
    change (discard (f b) >>= fun _ ↦ bs.forM fun b ↦ discard (f b) : Update σ Unit).run s = _
    rw [List.mapM_cons]
    simp only [EStateM.run_bind, run_discard]
    cases (f b).run s with
    | error e t => rfl
    | ok a t =>
      simp only [EStateM.run_pure, ih]
      cases (bs.mapM f).run t <;> rfl

end Update

end ProbeCoverage
