import Coinage.Table

/-!
# Looking up in tables

A table has a value under a key exactly if the key is one of its keys. With distinct keys the value
is the one that stands beside the key, so the order of the entries does not matter.
-/

namespace Coinage

namespace Table

variable {α β γ : Type} [DecidableEq α]

theorem mem_keys_iff {t : Table α β} {k : α} : k ∈ t.keys ↔ ∃ v, t.get? k = some v := by
  induction t with
  | nil => simp [keys, get?]
  | cons e t ih =>
    obtain ⟨j, v⟩ := e
    simp only [keys, List.map_cons, List.mem_cons, get?] at ih ⊢
    by_cases h : j = k
    · simp [h]
    · simp [h, ih, Ne.symm h]

theorem mem_of_get? {t : Table α β} {k : α} {v : β} (h : t.get? k = some v) : (k, v) ∈ t := by
  induction t with
  | nil => cases h
  | cons e t ih =>
    obtain ⟨j, w⟩ := e
    simp only [get?] at h
    split at h
    · rename_i hj
      cases h
      exact hj ▸ List.mem_cons_self
    · exact List.mem_cons_of_mem _ (ih h)

theorem get?_of_mem {t : Table α β} (hn : t.keys.Nodup) {k : α} {v : β} (h : (k, v) ∈ t) :
    t.get? k = some v := by
  induction t with
  | nil => cases h
  | cons e t ih =>
    obtain ⟨j, w⟩ := e
    obtain ⟨hj, hn⟩ := List.nodup_cons.mp hn
    rcases List.mem_cons.mp h with h | h
    · cases h
      simp [get?]
    · have hne : j ≠ k := by
        rintro rfl
        exact hj (List.mem_map.mpr ⟨_, h, rfl⟩)
      rw [get?, if_neg hne, ih hn h]

@[simp] theorem get?_put_self (t : Table α β) (k : α) (v : β) : (t.put k v).get? k = some v := by
  induction t with
  | nil => simp [put, get?]
  | cons e t ih =>
    obtain ⟨j, w⟩ := e
    by_cases h : j = k
    · simp [put, get?, h]
    · simp [put, get?, h, ih]

/-- Entering a value changes none under another key. -/
@[simp] theorem get?_put_of_ne (t : Table α β) {k l : α} (hne : l ≠ k) (v : β) :
    (t.put k v).get? l = t.get? l := by
  induction t with
  | nil => simp [put, get?, Ne.symm hne]
  | cons e t ih =>
    obtain ⟨j, w⟩ := e
    by_cases h : j = k
    · subst h
      simp [put, get?, Ne.symm hne]
    · simp [put, get?, h, ih]

/-- Reordering a table changes no value. -/
theorem get?_of_perm {t t' : Table α β} (hn : t.keys.Nodup) (h : t.Perm t') (k : α) :
    t'.get? k = t.get? k := by
  have hn' : t'.keys.Nodup := (h.map Prod.fst).nodup hn
  refine Option.ext fun v => ⟨fun hv => ?_, fun hv => ?_⟩
  · exact get?_of_mem hn (h.mem_iff.mpr (mem_of_get? hv))
  · exact get?_of_mem hn' (h.mem_iff.mp (mem_of_get? hv))

/-- With distinct keys the first place of a key is its only one. -/
theorem idxOf?_keys_eq_some_iff [BEq α] [LawfulBEq α] {t : Table α β} (hn : t.keys.Nodup) {k : α}
    {i : Nat} : t.keys.idxOf? k = some i ↔ ∃ v, t[i]? = some (k, v) := by
  induction t generalizing i with
  | nil => simp [keys]
  | cons e t ih =>
    obtain ⟨j, w⟩ := e
    obtain ⟨hj, hn⟩ := List.nodup_cons.mp hn
    simp only [keys, List.map_cons, List.idxOf?_cons] at ih ⊢
    by_cases h : j = k
    · subst h
      cases i with
      | zero => simp
      | succ i =>
        have hnot (v : β) : t[i]? ≠ some (j, v) := fun hv =>
          hj (List.mem_map.mpr ⟨_, List.mem_of_getElem? hv, rfl⟩)
        simp [hnot]
    · cases i with
      | zero => simp [h]
      | succ i => simpa [h] using ih hn

/-- The place of a key is the place of its value. -/
theorem exists_idxOf? [BEq α] [LawfulBEq α] {t : Table α β} {k : α} {v : β}
    (h : t.get? k = some v) :
    ∃ i, t.keys.idxOf? k = some i ∧ t[i]?.map Prod.snd = some v := by
  induction t with
  | nil => cases h
  | cons e t ih =>
    obtain ⟨j, w⟩ := e
    simp only [get?] at h
    simp only [keys, List.map_cons, List.idxOf?_cons]
    by_cases hj : j = k
    · rw [if_pos hj] at h
      exact ⟨0, by simp [hj], by simpa using h⟩
    · rw [if_neg hj] at h
      obtain ⟨i, hi, hv⟩ := ih h
      refine ⟨i + 1, ?_, by simpa using hv⟩
      rw [if_neg (by simpa using hj)]
      simpa [keys] using hi

end Table

end Coinage
