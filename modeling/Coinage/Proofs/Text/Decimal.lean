import Coinage.Number.Power
import Coinage.Text.Decimal
import Coinage.Text.Digit
import Mathlib.Data.List.Induction

/-!
# Decimal numerals are read back

The canonical numeral of a number consists of digits that denote the number. A number has at most
`k` digits exactly if it is less than the power of ten with the exponent `k`.
-/

namespace Coinage

@[simp] theorem digitValue?_digitChar (d : Nat) : digitValue? (digitChar d) = some (d % 10) := by
  have hdigits : ∀ k < 10, digitValue? (Char.ofNat (48 + k)) = some k := by decide
  exact hdigits (d % 10) (Nat.mod_lt _ (by decide))

@[simp] theorem isDigit_digitChar (d : Nat) : isDigit (digitChar d) = true := by
  simp [isDigit]

/-- A digit denotes less than ten, whatever its script is. -/
theorem digitValue?_lt {c : Char} {d : Nat} (h : digitValue? c = some d) : d < 10 := by
  simp only [digitValue?] at h
  split at h
  · split at h
    · rename_i hd
      cases h
      have hle : c.toNat ≤ 57 := by
        simp only [Char.isDigit, Bool.and_eq_true, decide_eq_true_eq] at hd
        exact hd.2
      omega
    · cases h
  · obtain ⟨z, hz, rfl⟩ := Option.map_eq_some_iff.mp h
    have hz := List.find?_some hz
    simp only [Bool.and_eq_true, decide_eq_true_eq] at hz
    omega

@[simp] theorem digitsValue_concat (ds : List Char) (c : Char) :
    digitsValue (ds ++ [c]) = 10 * digitsValue ds + (digitValue? c).getD 0 := by
  simp [digitsValue]

/-- Digits put in front do not make a number less. -/
theorem digitsValue_le_append (es ds : List Char) : digitsValue ds ≤ digitsValue (es ++ ds) := by
  induction ds using List.reverseRecOn with
  | nil => exact Nat.zero_le _
  | append_singleton ds c ih =>
    rw [← List.append_assoc, digitsValue_concat, digitsValue_concat]
    omega

theorem tenTo_le_tenTo {i j : Nat} (h : i ≤ j) : tenTo i ≤ tenTo j :=
  Nat.pow_le_pow_right (by decide) h

theorem digitsValue_lt (ds : List Char) : digitsValue ds < tenTo ds.length := by
  induction ds using List.reverseRecOn with
  | nil => exact Nat.zero_lt_one
  | append_singleton ds c ih =>
    have hc : (digitValue? c).getD 0 < 10 := by
      cases h : digitValue? c with
      | none => simp
      | some d => exact digitValue?_lt h
    rw [digitsValue_concat, List.length_append, List.length_singleton, tenTo_succ]
    omega

@[simp]
theorem decimalOnto_eq (n : Nat) (tail : List Char) : decimalOnto n tail = decimal n ++ tail := by
  unfold decimal
  induction n using Nat.strongRecOn generalizing tail with
  | ind n ih =>
    rw [decimalOnto.eq_def n tail, decimalOnto.eq_def n []]
    by_cases hn : n < 10
    · rw [if_pos hn, if_pos hn]
      rfl
    · rw [if_neg hn, if_neg hn, ih (n / 10) (by omega), ih (n / 10) (by omega) [digitChar n]]
      simp

@[simp] theorem decimal_of_lt {n : Nat} (h : n < 10) : decimal n = [digitChar n] := by
  rw [decimal, decimalOnto, if_pos h]

/-- The last digit stands behind those of a tenth. -/
theorem decimal_of_le {n : Nat} (h : 10 ≤ n) : decimal n = decimal (n / 10) ++ [digitChar n] := by
  rw [decimal, decimalOnto, if_neg (Nat.not_lt.mpr h), decimalOnto_eq]

@[simp] theorem decimal_ne_nil (n : Nat) : decimal n ≠ [] := by
  by_cases h : n < 10
  · simp [decimal_of_lt h]
  · simp [decimal_of_le (Nat.not_lt.mp h)]

theorem exists_digitChar_of_mem_decimal {n : Nat} {c : Char} (h : c ∈ decimal n) :
    ∃ d, c = digitChar d := by
  induction n using Nat.strongRecOn with
  | ind n ih =>
    by_cases hn : n < 10
    · rw [decimal_of_lt hn, List.mem_singleton] at h
      exact ⟨n, h⟩
    · rw [decimal_of_le (Nat.not_lt.mp hn), List.mem_append, List.mem_singleton] at h
      rcases h with h | rfl
      · exact ih (n / 10) (by omega) h
      · exact ⟨n, rfl⟩

theorem isDigit_of_mem_decimal {n : Nat} {c : Char} (h : c ∈ decimal n) : isDigit c = true := by
  obtain ⟨d, rfl⟩ := exists_digitChar_of_mem_decimal h
  exact isDigit_digitChar d

@[simp] theorem digitsValue_decimal (n : Nat) : digitsValue (decimal n) = n := by
  induction n using Nat.strongRecOn with
  | ind n ih =>
    by_cases hn : n < 10
    · simp [decimal_of_lt hn, digitsValue, Nat.mod_eq_of_lt hn]
    · rw [decimal_of_le (Nat.not_lt.mp hn), digitsValue_concat, ih (n / 10) (by omega),
        digitValue?_digitChar, Option.getD_some]
      omega

@[simp] theorem signedDecimal_natCast (n : Nat) : signedDecimal n = decimal n := by
  rw [signedDecimal, if_neg (Int.not_lt.mpr (Int.natCast_nonneg n)), Int.natAbs_natCast]

theorem length_decimal_le {n k : Nat} (hk : 0 < k) (h : n < tenTo k) : (decimal n).length ≤ k := by
  induction k generalizing n with
  | zero => exact absurd hk (Nat.lt_irrefl 0)
  | succ k ih =>
    by_cases hn : n < 10
    · simp [decimal_of_lt hn]
    · rw [tenTo_succ] at h
      have hk' : 0 < k := by
        by_contra h0
        obtain rfl : k = 0 := by omega
        rw [tenTo_zero] at h
        omega
      have hlen := ih hk' (show n / 10 < tenTo k by omega)
      rw [decimal_of_le (Nat.not_lt.mp hn), List.length_append, List.length_singleton]
      omega

end Coinage
