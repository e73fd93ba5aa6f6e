import Coinage.Config.Files
import Coinage.Proofs.Results
import Coinage.Proofs.Table
import Mathlib.Tactic.SplitIfs

/-!
# Adding to files

What is added to an open file is read back at the end of it, and nothing changes at any other place.
The way to a file leads through directories only, so what the file holds does not affect it.
-/

namespace Coinage

namespace Files

variable {fs fs' : Files} {place : FilePlace} {path : List Char}

@[simp] theorem entry?_put_self (h : fs.entry? place ≠ some .directory) (e : Entry) :
    entry? (fs.put place e) place = some e := by
  cases hknown : fs.isDirectory place with
  | true => exact absurd (if_pos hknown) h
  | false => simp [put, hknown, entry?]

@[simp] theorem entry?_put_of_ne {q : FilePlace} (hne : q ≠ place) (e : Entry) :
    entry? (fs.put place e) q = fs.entry? q := by
  simp only [put, fs.listed.get?_put_of_ne hne, entry?]

/-- Where no directory is, no directory is replaced. -/
theorem entry?_put_of_directory {q : FilePlace} (h : fs.entry? place ≠ some .directory) (e : Entry)
    (hq : fs.entry? q = some .directory) : entry? (fs.put place e) q = some .directory := by
  have hne : q ≠ place := by
    rintro rfl
    exact h hq
  rw [entry?_put_of_ne hne, hq]

/-- A way leads to the same place whatever is put where no directory is. -/
theorem follow_put {start target : FilePlace} {parts : List (List Char)}
    (hplace : fs.entry? place ≠ some .directory) (e : Entry)
    (h : fs.follow start parts = .ok target) :
    (fs.put place e).follow start parts = .ok target := by
  fun_induction follow fs start parts with
  | case1 start => exact h
  | case2 start p ps hstart => cases h
  | case3 start p ps content hstart => cases h
  | case4 start p ps hstart hstay ih =>
    simp only [follow, entry?_put_of_directory hplace e hstart, if_pos hstay]
    exact ih h
  | case5 start ps hstart hmove ih =>
    simp only [follow, entry?_put_of_directory hplace e hstart, if_neg hmove, if_true]
    exact ih h
  | case6 start p ps hstart hmove hdown hlong => cases h
  | case7 start p ps hstart hmove hdown hfits ih =>
    simp only [follow, entry?_put_of_directory hplace e hstart, if_neg hmove, if_neg hdown,
      if_neg hfits]
    exact ih h

theorem placeOf_put {parts : List (List Char)} {target : FilePlace}
    (hplace : fs.entry? place ≠ some .directory) (e : Entry)
    (h : fs.placeOf path parts = .ok target) :
    (fs.put place e).placeOf path parts = .ok target := by
  simp only [placeOf] at h ⊢
  split_ifs at h ⊢
  -- the way begins at the root or at the directory
  all_goals exact follow_put hplace e h

theorem placeOf_of_targetOf (h : fs.targetOf path = .ok place) :
    fs.placeOf path (Path.split path) = .ok place := by
  simp only [targetOf] at h
  split at h
  · obtain ⟨q, -, hq⟩ := except_bind_eq_ok.mp h
    cases hq
  · exact h

theorem read_of_placeOf (h : fs.placeOf path (Path.split path) = .ok place) :
    fs.read path = match fs.entry? place with
      | none => .error .missing
      | some .directory => .error .isADirectory
      | some (.file content) => .ok content := by
  simp only [read, h, Bind.bind, Except.bind]
  cases fs.entry? place with
  | none => rfl
  | some e => cases e <;> rfl

/-- What is put at the place of a path is read there. -/
theorem read_put (h : fs.placeOf path (Path.split path) = .ok place)
    (hplace : fs.entry? place ≠ some .directory) (content : List UInt8) :
    (fs.put place (.file content)).read path = .ok content := by
  rw [read_of_placeOf (placeOf_put hplace _ h), entry?_put_self hplace]

theorem add_of_entry {old : List UInt8} (h : fs.entry? place = some (.file old))
    (content : List UInt8) : fs.add place content = fs.put place (.file (old ++ content)) := by
  rw [add, h]

/-- The second files are the first ones with some bytes more at the end of the file at a path, which
leads to the same place in both. A file that is missing holds none. -/
structure Added (fs : Files) (path : List Char) (place : FilePlace) (content : List UInt8)
    (fs' : Files) : Prop where
  leads : fs.placeOf path (Path.split path) = .ok place
  stillLeads : fs'.placeOf path (Path.split path) = .ok place
  more : ∃ old, (fs.read path = .ok old ∨ fs.read path = .error .missing ∧ old = []) ∧
    fs'.read path = .ok (old ++ content)
  others : ∀ q, q ≠ place → fs'.entry? q = fs.entry? q

theorem Added.entry {content : List UInt8} (h : fs.Added path place content fs') :
    ∃ old, (fs.read path = .ok old ∨ fs.read path = .error .missing ∧ old = []) ∧
      fs'.entry? place = some (.file (old ++ content)) := by
  obtain ⟨old, hold, hread⟩ := h.more
  refine ⟨old, hold, ?_⟩
  rw [read_of_placeOf h.stillLeads] at hread
  split at hread
  · cases hread
  · cases hread
  · rename_i hentry
    cases hread
    exact hentry

theorem added_of_openToAdd (h : fs.openToAdd path = .ok (place, fs')) :
    fs.Added path place [] fs' := by
  obtain ⟨target, htarget, hopen⟩ := except_bind_eq_ok.mp h
  have hleads := placeOf_of_targetOf htarget
  have hread := read_of_placeOf hleads
  cases hentry : fs.entry? target with
  | none =>
    rw [hentry] at hopen hread
    cases hopen
    have hplace : fs.entry? place ≠ some .directory := by simp [hentry]
    exact ⟨hleads, placeOf_put hplace _ hleads, ⟨[], .inr ⟨hread, rfl⟩, read_put hleads hplace []⟩,
      fun q hq => entry?_put_of_ne hq _⟩
  | some e =>
    rw [hentry] at hopen hread
    cases e with
    | file old =>
      cases hopen
      exact ⟨hleads, hleads, ⟨old, .inl hread, by rw [hread, List.append_nil]⟩, fun _ _ => rfl⟩
    | directory => cases hopen

theorem Added.add {content : List UInt8} (h : fs.Added path place content fs')
    (more : List UInt8) : fs.Added path place (content ++ more) (fs'.add place more) := by
  obtain ⟨old, hold, hentry⟩ := h.entry
  have hplace : fs'.entry? place ≠ some .directory := by simp [hentry]
  rw [add_of_entry hentry, List.append_assoc]
  refine ⟨h.leads, placeOf_put hplace _ h.stillLeads, ⟨old, hold, ?_⟩, fun q hq => ?_⟩
  · exact read_put h.stillLeads hplace (old ++ (content ++ more))
  · rw [entry?_put_of_ne hq, h.others q hq]

end Files

end Coinage
