/-!
# Lists

The longest run at the front of a list of elements of one kind, told by what stops it, and lists
whose elements are all images.
-/

namespace Coinage

variable {α β : Type}

theorem takeWhile_append_of_stop {p : α → Bool} {xs r : List α} (hxs : ∀ x ∈ xs, p x = true)
    (hr : ∀ x ∈ r.head?, p x = false) : (xs ++ r).takeWhile p = xs := by
  rw [List.takeWhile_append_of_pos hxs]
  cases r with
  | nil => simp
  | cons x r => simp [hr x rfl]

theorem takeWhile_eq_iff {p : α → Bool} {xs s : List α} :
    s.takeWhile p = xs ↔
      ∃ r, s = xs ++ r ∧ (∀ x ∈ xs, p x = true) ∧ ∀ x ∈ r.head?, p x = false := by
  constructor
  · intro h
    refine ⟨s.dropWhile p, ?_, ?_, ?_⟩
    · rw [← h, List.takeWhile_append_dropWhile]
    · rw [← h]
      exact List.all_eq_true.mp List.all_takeWhile
    · intro x hx
      have hd := List.head?_dropWhile_not p s
      rw [Option.mem_def.mp hx] at hd
      simpa using hd
  · rintro ⟨r, rfl, hxs, hr⟩
    exact takeWhile_append_of_stop hxs hr

theorem exists_map_eq {f : α → β} {P : α → Prop} {ys : List β}
    (h : ∀ y ∈ ys, ∃ x, f x = y ∧ P x) : ∃ xs : List α, xs.map f = ys ∧ ∀ x ∈ xs, P x := by
  induction ys with
  | nil => exact ⟨[], rfl, fun _ h => absurd h List.not_mem_nil⟩
  | cons y ys ih =>
    obtain ⟨x, rfl, hx⟩ := h y List.mem_cons_self
    obtain ⟨xs, rfl, hxs⟩ := ih fun z hz => h z (List.mem_cons_of_mem _ hz)
    exact ⟨x :: xs, rfl, List.forall_mem_cons.mpr ⟨hx, hxs⟩⟩

end Coinage
