/-!
# Results of composed steps

A composed step succeeds exactly if its parts succeed one after the other, and fails where the first
of them does. The same holds of a step that is made for every element of a list.
-/

namespace Coinage

variable {ε ε' σ α β β' γ : Type}

@[simp] theorem except_bind_eq_ok {x : Except ε α} {f : α → Except ε β} {b : β} :
    x >>= f = .ok b ↔ ∃ a, x = .ok a ∧ f a = .ok b := by
  cases x with
  | error e => simp [Bind.bind, Except.bind]
  | ok a => simp [Bind.bind, Except.bind]

@[simp] theorem except_bind_eq_error {x : Except ε α} {f : α → Except ε β} {e : ε} :
    x >>= f = .error e ↔ x = .error e ∨ ∃ a, x = .ok a ∧ f a = .error e := by
  cases x with
  | error e => simp [Bind.bind, Except.bind]
  | ok a => simp [Bind.bind, Except.bind]

theorem stateM_bind_of_ok {x : EStateM ε σ α} {s s' : σ} {a : α} (h : x s = .ok a s')
    (f : α → EStateM ε σ β) : (x >>= f) s = f a s' := by
  simp only [Bind.bind, EStateM.bind, h]

theorem stateM_bind_of_error {x : EStateM ε σ α} {s s' : σ} {e : ε} (h : x s = .error e s')
    (f : α → EStateM ε σ β) : (x >>= f) s = .error e s' := by
  simp only [Bind.bind, EStateM.bind, h]

theorem stateM_tryCatch_of_ok {x : EStateM ε σ α} {s s' : σ} {a : α} (h : x s = .ok a s')
    (f : α → β) (handle : ε → EStateM ε σ β) : tryCatch (f <$> x) handle s = .ok (f a) s' := by
  have hmap : (f <$> x) s = .ok (f a) s' := by simp only [Functor.map, EStateM.map, h]
  change EStateM.tryCatch (f <$> x) handle s = _
  delta EStateM.tryCatch
  rw [hmap]

theorem stateM_tryCatch_of_error {x : EStateM ε σ α} {s s' : σ} {e : ε} (h : x s = .error e s')
    (f : α → β) (handle : ε → EStateM ε σ β) : tryCatch (f <$> x) handle s = handle e s' := by
  have hmap : (f <$> x) s = .error e s' := by simp only [Functor.map, EStateM.map, h]
  change EStateM.tryCatch (f <$> x) handle s = _
  delta EStateM.tryCatch
  rw [hmap]
  rfl

@[simp] theorem stateM_bind_eq_ok {x : EStateM ε σ α} {f : α → EStateM ε σ β} {s s' : σ} {b : β} :
    (x >>= f) s = .ok b s' ↔ ∃ a s₁, x s = .ok a s₁ ∧ f a s₁ = .ok b s' := by
  simp only [Bind.bind, EStateM.bind]
  cases h : x s with
  | ok a s₁ =>
    constructor
    · intro hf
      exact ⟨a, s₁, rfl, hf⟩
    · rintro ⟨a', s₂, he, hf⟩
      cases he
      exact hf
  | error e s₁ => simp

@[simp]
theorem stateM_bind_eq_error {x : EStateM ε σ α} {f : α → EStateM ε σ β} {s s' : σ} {e : ε} :
    (x >>= f) s = .error e s' ↔
      x s = .error e s' ∨ ∃ a s₁, x s = .ok a s₁ ∧ f a s₁ = .error e s' := by
  simp only [Bind.bind, EStateM.bind]
  cases h : x s with
  | ok a s₁ =>
    constructor
    · intro hf
      exact .inr ⟨a, s₁, rfl, hf⟩
    · rintro (he | ⟨a', s₂, he, hf⟩)
      · cases he
      · cases he
        exact hf
  | error e' s₁ => simp

/-- The step fails with the error for an element of the list, and for none before it. -/
def FirstError (f : α → Except ε β) (xs : List α) (e : ε) : Prop :=
  ∃ before x after, xs = before ++ x :: after ∧ (∀ y ∈ before, ∃ b, f y = .ok b) ∧ f x = .error e

@[simp] theorem firstError_cons {f : α → Except ε β} {x : α} {xs : List α} {e : ε} :
    FirstError f (x :: xs) e ↔ f x = .error e ∨ (∃ b, f x = .ok b) ∧ FirstError f xs e := by
  constructor
  · rintro ⟨before, y, after, heq, hok, herr⟩
    cases before with
    | nil =>
      cases heq
      exact .inl herr
    | cons z before =>
      cases heq
      obtain ⟨hx, hbefore⟩ := List.forall_mem_cons.mp hok
      exact .inr ⟨hx, before, y, after, rfl, hbefore, herr⟩
  · rintro (herr | ⟨hx, before, y, after, rfl, hok, herr⟩)
    · exact ⟨[], x, xs, rfl, by simp, herr⟩
    · exact ⟨x :: before, y, after, rfl, List.forall_mem_cons.mpr ⟨hx, hok⟩, herr⟩

@[simp] theorem firstError_map {f : α → Except ε β} {g : γ → α} {xs : List γ} {e : ε} :
    FirstError f (xs.map g) e ↔ FirstError (fun x => f (g x)) xs e := by
  induction xs with
  | nil => simp [FirstError]
  | cons x xs ih => rw [List.map_cons, firstError_cons, firstError_cons, ih]

/-- Two steps that succeed together, and fail together where one of them fails with its error, fail
first for the same element. -/
theorem firstError_congr {f : α → Except ε β} {g : α → Except ε' β'} {xs : List α} {e : ε} {e' : ε'}
    (hok : ∀ x ∈ xs, (∃ b, f x = .ok b) ↔ ∃ b, g x = .ok b)
    (herr : ∀ x ∈ xs, f x = .error e ↔ g x = .error e') :
    FirstError f xs e ↔ FirstError g xs e' := by
  induction xs with
  | nil => simp [FirstError]
  | cons x xs ih =>
    obtain ⟨hx, hxs⟩ := List.forall_mem_cons.mp hok
    obtain ⟨hx', hxs'⟩ := List.forall_mem_cons.mp herr
    rw [firstError_cons, firstError_cons, hx, hx', ih hxs hxs']

@[simp] theorem mapM_eq_error_iff {f : α → Except ε β} {xs : List α} {e : ε} :
    xs.mapM f = .error e ↔ FirstError f xs e := by
  induction xs with
  | nil =>
    rw [List.mapM_nil]
    constructor
    · intro h
      cases h
    · rintro ⟨before, x, after, heq, -⟩
      cases before <;> cases heq
  | cons x xs ih =>
    rw [List.mapM_cons, except_bind_eq_error, firstError_cons, ← ih]
    refine or_congr_right ?_
    constructor
    · rintro ⟨b, hb, h⟩
      rcases except_bind_eq_error.mp h with h | ⟨bs, -, h⟩
      · exact ⟨⟨b, hb⟩, h⟩
      · cases h
    · rintro ⟨⟨b, hb⟩, h⟩
      exact ⟨b, hb, except_bind_eq_error.mpr (.inl h)⟩

@[simp] theorem exists_mapM_eq_ok_iff {f : α → Except ε β} {xs : List α} :
    (∃ ys, xs.mapM f = .ok ys) ↔ ∀ x ∈ xs, ∃ y, f x = .ok y := by
  induction xs with
  | nil => simpa using ⟨[], rfl⟩
  | cons x xs ih =>
    simp only [List.mapM_cons, except_bind_eq_ok]
    rw [List.forall_mem_cons, ← ih]
    constructor
    · rintro ⟨_, y, hy, ys, hys, -⟩
      exact ⟨⟨y, hy⟩, ys, hys⟩
    · rintro ⟨⟨y, hy⟩, ys, hys⟩
      exact ⟨y :: ys, y, hy, ys, hys, rfl⟩

end Coinage
