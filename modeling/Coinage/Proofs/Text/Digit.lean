import Coinage.Proofs.Text.Decimal
import Mathlib.Data.List.Forall2
import Mathlib.Data.List.Pairwise
import Mathlib.Data.Nat.Digits.Defs

/-!
# What digits denote

A digit stands behind the zero of its script by as many places as it denotes, and every character
that does so is a digit. Digits in a row denote the number that has them as its digits in base ten,
whatever their scripts are and however many zeros stand in front.
-/

namespace Coinage

/-- The character is the digit `v` of some script: it stands `v` places behind the zero. -/
def DenotesDigit (c : Char) (v : Nat) : Prop := v < 10 ∧ ∃ z ∈ zeros, c.toNat = z + v

theorem zeros_apart : zeros.Pairwise fun y z => y + 10 ≤ z := by decide

theorem eq_or_le_of_mem_zeros : ∀ z ∈ zeros, z = 0x30 ∨ 128 ≤ z := by decide

/-- A code point belongs to one row of digits only. -/
theorem zero_unique {y z n : Nat} (hy : y ∈ zeros) (hz : z ∈ zeros) (hyn : y ≤ n ∧ n < y + 10)
    (hzn : z ≤ n ∧ n < z + 10) : y = z := by
  have : Std.Symm fun y z : Nat => y + 10 ≤ z ∨ z + 10 ≤ y := ⟨fun _ _ => Or.symm⟩
  have hapart : zeros.Pairwise fun y z => y + 10 ≤ z ∨ z + 10 ≤ y :=
    zeros_apart.imp fun h => .inl h
  by_contra hne
  have h := hapart.forall hy hz hne
  omega

theorem digitValue?_eq_some_iff {c : Char} {v : Nat} :
    digitValue? c = some v ↔ DenotesDigit c v := by
  constructor
  · intro h
    refine ⟨digitValue?_lt h, ?_⟩
    simp only [digitValue?] at h
    split at h
    · split at h
      · rename_i hd
        cases h
        have hle : 48 ≤ c.toNat := by
          simp only [Char.isDigit, Bool.and_eq_true, decide_eq_true_eq] at hd
          exact hd.1
        exact ⟨0x30, by decide, by omega⟩
      · cases h
    · obtain ⟨z, hz, rfl⟩ := Option.map_eq_some_iff.mp h
      have hrow := List.find?_some hz
      simp only [Bool.and_eq_true, decide_eq_true_eq] at hrow
      exact ⟨z, List.mem_of_find?_eq_some hz, by omega⟩
  · rintro ⟨hv, z, hz, hc⟩
    simp only [digitValue?]
    split
    · have hz48 : z = 0x30 := (eq_or_le_of_mem_zeros z hz).resolve_right (by omega)
      have hd : c.isDigit = true := by
        simp only [Char.isDigit, Bool.and_eq_true, decide_eq_true_eq]
        change 48 ≤ c.toNat ∧ c.toNat ≤ 57
        omega
      rw [if_pos hd, Option.some.injEq]
      omega
    · have hfind : zeros.find? (fun z => z ≤ c.toNat && c.toNat < z + 10) = some z := by
        cases hf : zeros.find? (fun z => z ≤ c.toNat && c.toNat < z + 10) with
        | none =>
          have hnot := List.find?_eq_none.mp hf z hz
          simp only [Bool.and_eq_true, decide_eq_true_eq] at hnot
          omega
        | some y =>
          have hrow := List.find?_some hf
          simp only [Bool.and_eq_true, decide_eq_true_eq] at hrow
          rw [zero_unique (List.mem_of_find?_eq_some hf) hz hrow (by omega)]
      rw [hfind, Option.map_some, Option.some.injEq]
      omega

theorem isDigit_iff {c : Char} : isDigit c = true ↔ ∃ v, DenotesDigit c v := by
  rw [isDigit, Option.isSome_iff_exists]
  exact exists_congr fun v => digitValue?_eq_some_iff

theorem digitsValue_eq_ofDigits (ds : List Char) :
    digitsValue ds = Nat.ofDigits 10 (ds.map fun c => (digitValue? c).getD 0).reverse := by
  induction ds using List.reverseRecOn with
  | nil => rfl
  | append_singleton ds c ih =>
    rw [digitsValue_concat, ih, List.map_append, List.map_singleton, List.reverse_append,
      List.reverse_singleton, List.singleton_append, Nat.ofDigits_cons]
    exact Nat.add_comm _ _

/-- The characters are the digits of a number in base ten, the highest first. -/
structure Digits (ds : List Char) (n : Nat) : Prop where
  nonempty : ds ≠ []
  denote : ∃ vs : List Nat, List.Forall₂ DenotesDigit ds vs ∧ n = Nat.ofDigits 10 vs.reverse

/-- A run of digits denotes the number of which it is the digits. -/
theorem digits_digitsValue {ds : List Char} (hne : ds ≠ []) (h : ∀ d ∈ ds, isDigit d = true) :
    Digits ds (digitsValue ds) := by
  refine ⟨hne, _, ?_, digitsValue_eq_ofDigits ds⟩
  rw [List.forall₂_map_right_iff, List.forall₂_same]
  intro d hd
  obtain ⟨v, hv⟩ := isDigit_iff.mp (h d hd)
  rwa [digitValue?_eq_some_iff.mpr hv, Option.getD_some]

end Coinage
