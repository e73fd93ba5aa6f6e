import Coinage.Chance.Count
import Coinage.Proofs.Number.Rounding

/-!
# Which widths can be drawn from

The width between two bounds is rounded to 53 binary digits, and a draw is possible if the result is
less than 2¹⁰²⁴. Rounding adds at most half a unit of the last digit, so only a width that lacks no
more than half a unit to 2¹⁰²⁴ is too large.

Up to a width of 2⁵⁰ the fractions are so close together, and the rounding is so fine, that every
number between the bounds has a fraction that stands for it.
-/

namespace Coinage

/-- Some fraction in steps of `1 / d` falls short of `j / n` by less than a step. -/
theorem exists_numerator {d : Nat} (hd : 0 < d) {j n : Nat} (hj : j ≤ n) :
    ∃ i < d, i * n ≤ j * d ∧ j * d ≤ i * n + n := by
  obtain rfl | hlt := Nat.eq_or_lt_of_le hj
  · refine ⟨d - 1, Nat.sub_one_lt_of_lt hd, ?_, ?_⟩
    · rw [Nat.mul_comm j d]
      exact Nat.mul_le_mul_right j (Nat.sub_le d 1)
    · have hsucc : (d - 1) * j + j = j * d := by
        rw [← Nat.succ_mul, Nat.succ_eq_add_one, Nat.sub_add_cancel hd, Nat.mul_comm]
      exact Nat.le_of_eq hsucc.symm
  · have hdiv : j * d / n * n + j * d % n = j * d := Nat.div_add_mod' _ _
    have hmod : j * d % n < n := Nat.mod_lt _ (Nat.zero_lt_of_lt hlt)
    refine ⟨j * d / n, Nat.div_lt_of_lt_mul (Nat.mul_lt_mul_of_pos_right hlt hd), ?_, ?_⟩ <;> omega

namespace Bounds

/-- The width is beyond the numbers of binary64: rounded to 53 binary digits it is not less than
2¹⁰²⁴. -/
def TooWide (b : Bounds) : Prop := (twoTo 1024 : Int) - twoTo 970 ≤ b.hi - b.lo

theorem round53_lt_of_not_tooWide {b : Bounds} {n : Nat} (hn : b.hi - b.lo = n)
    (h : ¬b.TooWide) : round53 n < twoTo 1024 := by
  have hhalf : twoTo 971 = twoTo 970 * 2 := twoTo_succ 970
  have hfull : twoTo (53 + 971) = twoTo 1024 := rfl
  rw [TooWide, hn] at h
  exact round53_lt (k := 971) (by omega)

/-- Bounds in order have no share only if they are too wide. -/
theorem tooWide_of_share {b : Bounds} {i : Nat} (hb : b.lo ≤ b.hi) (h : b.share i = none) :
    b.TooWide := by
  simp only [share] at h
  split at h
  · rename_i hlarge
    obtain ⟨n, hn⟩ := Int.eq_ofNat_of_zero_le (Int.sub_nonneg.mpr hb)
    rw [hn, roundInt53_natCast, Int.natAbs_natCast] at hlarge
    exact Classical.byContradiction fun hnot =>
      Nat.not_lt.mpr hlarge (round53_lt_of_not_tooWide hn hnot)
  · cases h

/-- The share of a width that is not too large, without signs. -/
theorem share_of_width {b : Bounds} {n : Nat} (hn : b.hi - b.lo = n)
    (hfits : round53 n < twoTo 1024) (i : Nat) : b.share i = some (min
      (max (b.lo + (round53 (round53 (i * round53 n) + twoTo 52) / twoTo 53 : Nat)) b.lo) b.hi) := by
  have hspread : roundInt53 (roundInt53 ((i : Int) * round53 n) + twoTo 52) =
      (round53 (round53 (i * round53 n) + twoTo 52) : Nat) := by
    rw [← Int.natCast_mul, roundInt53_natCast, ← Int.natCast_add, roundInt53_natCast]
  simp only [share, hn, roundInt53_natCast, Int.natAbs_natCast, if_neg (Nat.not_le.mpr hfits),
    hspread, Int.natCast_ediv]

/-- A share is within the bounds. -/
theorem share_mem {b : Bounds} {i : Nat} {n : Int} (hb : b.lo ≤ b.hi)
    (h : b.share i = some n) : b.lo ≤ n ∧ n ≤ b.hi := by
  simp only [share] at h
  split at h
  · cases h
  · rw [Option.some.injEq] at h
    rw [← h]
    exact ⟨Int.le_min.mpr ⟨Int.le_max_right _ _, hb⟩, Int.min_le_right _ _⟩

theorem count_mem {ρ : Type} [Draws ρ] {b : Bounds} {d d' : ρ} {n : Int} (hb : b.lo ≤ b.hi)
    (h : b.count d = (some n, d')) : b.lo ≤ n ∧ n ≤ b.hi := by
  rw [count] at h
  split at h
  · rename_i he
    cases h
    exact ⟨Int.le_refl _, hb⟩
  · rw [Prod.mk.injEq] at h
    exact share_mem hb h.1

/-- Every number between bounds that are not too far apart is the share of a fraction. -/
theorem exists_share {b : Bounds} (hwidth : b.hi - b.lo ≤ twoTo 50) {k : Int} (hlo : b.lo ≤ k)
    (hhi : k ≤ b.hi) : ∃ i < twoTo 53, b.share i = some k := by
  obtain ⟨j, hj⟩ := Int.eq_ofNat_of_zero_le (Int.sub_nonneg.mpr hlo)
  obtain ⟨n, hn⟩ := Int.eq_ofNat_of_zero_le (Int.sub_nonneg.mpr (Int.le_trans hlo hhi))
  have h₅₀ : twoTo 50 = 1125899906842624 := rfl
  have h₅₁ : twoTo 51 = 2251799813685248 := rfl
  have h₅₂ : twoTo 52 = 4503599627370496 := rfl
  have h₅₃ : twoTo 53 = 9007199254740992 := rfl
  have h₁₀₃ : twoTo (53 + 50) = 10141204801825835211973625643008 := rfl
  have h₁₀₄ : twoTo (53 + 51) = 20282409603651670423947251286016 := rfl
  have hjn : j ≤ n := by omega
  have hn₅₀ : n ≤ twoTo 50 := by omega
  obtain ⟨i, hi, hle, hge⟩ := exists_numerator (twoTo_pos 53) hjn
  refine ⟨i, hi, ?_⟩
  -- in steps of `1 / 2⁵³` the product is off by at most a width, and each rounding is off by far
  -- less than half
  have hproduct : i * n < twoTo (53 + 50) :=
    calc i * n
        < twoTo 53 * twoTo 50 := Nat.mul_lt_mul_of_lt_of_le hi hn₅₀ (twoTo_pos 50)
      _ = twoTo (53 + 50) := rfl
  have hfirst := round53_le hproduct
  have hfirst' := le_round53 hproduct
  have hsum : round53 (i * n) + twoTo 52 < twoTo (53 + 51) := by omega
  have hsecond := round53_le hsum
  have hsecond' := le_round53 hsum
  have hfloor : round53 (round53 (i * n) + twoTo 52) / twoTo 53 = j := by
    rw [Nat.div_eq_iff (twoTo_pos 53)]
    omega
  have hexact : round53 n = n := round53_of_lt (by omega)
  have hfits : round53 n < twoTo 1024 :=
    Nat.lt_of_lt_of_le (by omega) (twoTo_le_twoTo (show 53 ≤ 1024 by decide))
  rw [share_of_width hn hfits, hexact, hfloor, Option.some.injEq]
  omega

end Bounds

end Coinage
