import Coinage.Pattern.Cursor
import Coinage.Proofs.Lists
import Coinage.Proofs.Pattern.Grammar
import Coinage.Proofs.Results

/-!
# Numbers, identifiers and bounds at a cursor

What the readings of a cursor accept, in terms of the grammar: a reading succeeds exactly if the
text at the cursor begins as the grammar says, and it stops in front of the rest.
-/

namespace Coinage

namespace Cursor

/-- The place at which the text of the cursor ends. -/
def endPos (c : Cursor) : Nat := c.pos + c.rest.length

@[simp] theorem endPos_mk (pos : Nat) (rest : List Char) :
    endPos ⟨pos, rest⟩ = pos + rest.length := rfl

/-- A cursor that has moved within one text is told by what is left. -/
theorem eq_of_endPos {c d : Cursor} (hr : c.rest = d.rest) (he : c.endPos = d.endPos) : c = d := by
  cases c
  cases d
  simp only [endPos_mk] at he hr
  subst hr
  simpa using he

/-- There is a cursor in front of every rest that is not too long. -/
theorem exists_of_length_le {c : Cursor} {r : List Char} (h : r.length ≤ c.rest.length) :
    ∃ d : Cursor, d.rest = r ∧ d.endPos = c.endPos := by
  refine ⟨⟨c.endPos - r.length, r⟩, rfl, ?_⟩
  simp only [endPos] at h ⊢
  omega

theorem exists_behind_suffix {c : Cursor} {v s r : List Char} {b : Bounds} (hs : c.rest = v ++ s)
    (hb : Grammar.Suffix s b r) : ∃ d : Cursor, d.rest = r ∧ d.endPos = c.endPos := by
  refine exists_of_length_le (Nat.le_trans hb.length_le ?_)
  rw [hs, List.length_append]
  exact Nat.le_add_left _ _

theorem skip_append {c : Cursor} {x r : List Char} (h : c.rest = x ++ r) :
    c.skip x.length = ⟨c.pos + x.length, r⟩ := by
  simp [skip, h]

theorem pos_eq_of_endPos {c d : Cursor} {v : List Char} (hs : c.rest = v ++ d.rest)
    (he : d.endPos = c.endPos) : d.pos = c.pos + v.length := by
  simp only [endPos, hs, List.length_append] at he
  omega

theorem endPos_skip {c : Cursor} {x r : List Char} (h : c.rest = x ++ r) :
    (c.skip x.length).endPos = c.endPos := by
  simp [skip_append h, endPos, h, Nat.add_assoc]

end Cursor

namespace Scan

open Grammar

/-- The reading stops for the reason, wherever it leaves the cursor. -/
def Stops {α : Type} (s : Scan α) (c : Cursor) (e : Stop) : Prop :=
  ∃ d, s c = .error e d

@[simp] theorem stops_bind {α β : Type} {s : Scan α} {f : α → Scan β} {c : Cursor} {e : Stop} :
    Stops (s >>= f) c e ↔ Stops s c e ∨ ∃ a c₁, s c = .ok a c₁ ∧ Stops (f a) c₁ e := by
  simp only [Stops, stateM_bind_eq_error]
  constructor
  · rintro ⟨d, h | ⟨a, c₁, ha, h⟩⟩
    · exact .inl ⟨d, h⟩
    · exact .inr ⟨a, c₁, ha, d, h⟩
  · rintro (⟨d, h⟩ | ⟨a, c₁, ha, d, h⟩)
    · exact ⟨d, .inl h⟩
    · exact ⟨d, .inr ⟨a, c₁, ha, h⟩⟩

/-- A number is read where all digits up to the next character make up a numeral. -/
theorem integer_eq_ok {c c' : Cursor} {n : Nat} :
    integer c = .ok n c' ↔ ∃ ds r, c.rest = ds ++ r ∧ Numeral ds n ∧
      (∀ x ∈ r.head?, isDigit x = false) ∧ c' = ⟨c.pos + ds.length, r⟩ := by
  constructor
  · intro h
    obtain ⟨r, hs, hds, hr⟩ := takeWhile_eq_iff.mp (rfl : c.rest.takeWhile isDigit = _)
    simp only [integer] at h
    split at h
    · cases h
    · split at h
      · cases h
        exact ⟨_, r, hs, ⟨‹_›, hds, ‹_›, rfl⟩, hr, Cursor.skip_append hs⟩
      · cases h
  · rintro ⟨ds, r, hs, hn, hr, rfl⟩
    have hds : c.rest.takeWhile isDigit = ds := takeWhile_eq_iff.mpr ⟨r, hs, hn.digits, hr⟩
    simp only [integer, hds, if_neg hn.nonempty]
    rw [if_pos (show ds.length ≤ maxDigits from hn.short), hn.value, Cursor.skip_append hs]

theorem identifier_eq_ok {c c' : Cursor} {name : Name} :
    identifier c = .ok name c' ↔
      ∃ r, c.rest = name ++ r ∧ Identifier name r ∧ c' = ⟨c.pos + name.length, r⟩ := by
  constructor
  · intro h
    simp only [identifier] at h
    split at h
    · cases h
    · rename_i x s hs
      split at h
      · rename_i hx
        cases h
        obtain ⟨r, hr, hname, hstop⟩ := takeWhile_eq_iff.mp (rfl : s.takeWhile isNameChar = _)
        have he : c.rest = x :: s.takeWhile isNameChar ++ r := by
          rw [hs, List.cons_append, ← hr]
        refine ⟨r, he, ⟨?_, hstop⟩, Cursor.skip_append he⟩
        simp only [isIdentifier, hx, Bool.true_and, List.all_eq_true]
        exact hname
      · cases h
  · rintro ⟨r, hs, hi, rfl⟩
    have hid := hi.isIdentifier
    cases name with
    | nil => simp [isIdentifier] at hid
    | cons x name =>
      simp only [isIdentifier, Bool.and_eq_true, List.all_eq_true] at hid
      have hw := takeWhile_append_of_stop hid.2 hi.maximal
      have hs' : c.rest = x :: (name ++ r) := hs
      simp only [identifier, hs', hid.1, if_true, hw]
      rw [Cursor.skip_append hs]

theorem expect_eq_ok {x : Char} {c c' : Cursor} {u : Unit} :
    expect x c = .ok u c' ↔ ∃ r, c.rest = x :: r ∧ c' = ⟨c.pos + 1, r⟩ := by
  obtain ⟨pos, rest⟩ := c
  cases rest with
  | nil => simp [expect, Cursor.next]
  | cons y r =>
    simp only [expect, Cursor.next]
    by_cases h : y = x
    · simp [h, eq_comm]
    · simp [h]

theorem identifier_eq_error {c c' : Cursor} {e : Stop} : identifier c = .error e c' ↔ c' = c ∧
    (c.rest = [] ∧ e = .flaw .unexpectedEnd c.pos ∨
      ∃ x r, c.rest = x :: r ∧ isNameStart x = false ∧ e = .flaw .badIdentifier c.pos) := by
  obtain ⟨pos, rest⟩ := c
  cases rest with
  | nil => simp [identifier, @eq_comm _ e, @eq_comm _ c', and_comm]
  | cons x r =>
    by_cases h : isNameStart x <;>
      simp [identifier, h, @eq_comm _ e, @eq_comm _ c', and_comm]

/-- A character in the place of another one is passed over. -/
theorem expect_eq_error {x : Char} {c c' : Cursor} {e : Stop} : expect x c = .error e c' ↔
    c.rest.head? ≠ some x ∧ e = .flaw (.missing x) c.pos ∧ c' = c.next.2 := by
  obtain ⟨pos, rest⟩ := c
  cases rest with
  | nil => simp [expect, Cursor.next, @eq_comm _ e, @eq_comm _ c']
  | cons y r =>
    by_cases h : y = x <;> simp [expect, Cursor.next, h, @eq_comm _ e, @eq_comm _ c']

@[simp] theorem stops_identifier {c : Cursor} {e : Stop} : Stops identifier c e ↔
    c.rest = [] ∧ e = .flaw .unexpectedEnd c.pos ∨
      ∃ x r, c.rest = x :: r ∧ isNameStart x = false ∧ e = .flaw .badIdentifier c.pos := by
  simp only [Stops, identifier_eq_error, exists_eq_left]

@[simp] theorem stops_expect {x : Char} {c : Cursor} {e : Stop} : Stops (expect x) c e ↔
    c.rest.head? ≠ some x ∧ e = .flaw (.missing x) c.pos := by
  simp only [Stops, expect_eq_error, exists_and_left, exists_eq, and_true]

theorem no_digit_head {y : Char} (hy : isDigit y = false) (r : List Char) :
    ∀ x ∈ (y :: r).head?, isDigit x = false := by
  rintro x ⟨⟩
  exact hy

/-- Behind an opening brace stand two numerals in order, a comma between and a brace behind. -/
theorem braced_eq_ok {opened : Nat} {c c' : Cursor} {b : Bounds} :
    braced opened c = .ok b c' ↔ ∃ ds es r lo hi, c.rest = ds ++ ',' :: (es ++ '\x7d' :: r) ∧
      Numeral ds lo ∧ Numeral es hi ∧ lo ≤ hi ∧ b = ⟨lo, hi⟩ ∧
      c' = ⟨c.pos + ds.length + 1 + es.length + 1, r⟩ := by
  unfold braced
  simp only [stateM_bind_eq_ok, integer_eq_ok, expect_eq_ok]
  constructor
  · rintro ⟨lo, c₁, ⟨ds, r₁, h₁, hlo, -, rfl⟩, _, c₂, ⟨r₂, h₂, rfl⟩, hi, c₃,
      ⟨es, r₃, h₃, hhi, -, rfl⟩, _, c₄, ⟨r₄, h₄, rfl⟩, h⟩
    simp only at h₂ h₃ h₄
    subst h₂ h₃ h₄
    split at h
    · cases h
    · cases h
      exact ⟨ds, es, r₄, lo, hi, h₁, hlo, hhi, by omega, rfl, rfl⟩
  · rintro ⟨ds, es, r, lo, hi, hs, hlo, hhi, hle, rfl, rfl⟩
    refine ⟨lo, _, ⟨ds, _, hs, hlo, no_digit_head rfl _, rfl⟩, (), _, ⟨_, rfl, rfl⟩,
      hi, _, ⟨es, _, rfl, hhi, no_digit_head rfl r, rfl⟩, (), _, ⟨r, rfl, rfl⟩, ?_⟩
    rw [if_neg (by omega)]
    rfl

/-- Bounds are read where the text begins with a suffix, and reading stops behind it. -/
theorem bounds_eq_ok {c c' : Cursor} {b : Bounds} :
    bounds c = .ok b c' ↔ Suffix c.rest b c'.rest ∧ c'.endPos = c.endPos := by
  obtain ⟨pos, s⟩ := c
  constructor
  · intro h
    unfold bounds at h
    split at h
    · rename_i r hs
      cases h
      simp only at hs
      subst hs
      exact ⟨.optional, Cursor.endPos_skip (x := ['?']) rfl⟩
    · rename_i r hs
      simp only at hs
      subst hs
      obtain ⟨ds, es, r', lo, hi, hr, hlo, hhi, hle, rfl, rfl⟩ := braced_eq_ok.mp h
      simp only [Cursor.skip, List.drop_succ_cons, List.drop_zero] at hr
      subst hr
      refine ⟨.braces hlo hhi hle, ?_⟩
      simp only [Cursor.skip, Cursor.endPos_mk, List.length_cons, List.length_append]
      omega
    · rename_i h₁ h₂
      cases h
      refine ⟨.none ?_ ?_, rfl⟩
      · intro he
        obtain ⟨r, hr⟩ := List.head?_eq_some_iff.mp he
        exact h₁ r hr
      · intro he
        obtain ⟨r, hr⟩ := List.head?_eq_some_iff.mp he
        exact h₂ r hr
  · rintro ⟨h, he⟩
    generalize hr : c'.rest = r at h
    cases h with
    | none h₁ h₂ =>
      have hc : c' = ⟨pos, s⟩ := Cursor.eq_of_endPos hr he
      unfold bounds
      split
      · rename_i hs
        exact absurd (congrArg List.head? hs) h₁
      · rename_i hs
        exact absurd (congrArg List.head? hs) h₂
      · rw [hc]
        rfl
    | @optional r =>
      have hc : c' = ⟨pos + 1, r⟩ := by
        refine Cursor.eq_of_endPos hr (he.trans ?_)
        simp only [Cursor.endPos_mk, List.length_cons]
        omega
      rw [hc]
      rfl
    | @braces ds es r lo hi hlo hhi hle =>
      refine braced_eq_ok.mpr ⟨ds, es, r, lo, hi, rfl, hlo, hhi, hle, rfl, ?_⟩
      refine Cursor.eq_of_endPos hr (he.trans ?_)
      simp only [Cursor.skip, Cursor.endPos_mk, List.length_cons, List.length_append]
      omega

end Scan

end Coinage
