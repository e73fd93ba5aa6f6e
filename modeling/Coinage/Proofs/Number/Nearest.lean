import Coinage.Proofs.Number.Rounding
import Mathlib

/-!
# Rounding to the nearest number of binary64

What it means that a number is rounded to the nearest one of binary64, and halfway to the even one,
stated for rational numbers and without any digits being counted. Rounding to 53 binary digits does
it, for whole numbers and for fractions with a power of two as their denominator. There is one
number only that a number is rounded to, and rounding keeps the order of numbers.
-/

namespace Coinage

/-- A number of binary64, as if there were no greatest one: it has at most 53 binary digits, and
none behind the place 2⁻¹⁰⁷⁴. -/
def IsBinary64 (x : ℚ) : Prop := ∃ m e : ℤ, |m| < 2 ^ 53 ∧ -1074 ≤ e ∧ x = m * 2 ^ e

/-- A number of binary64 whose last digit is even, in the last of 53 places or in the place
2⁻¹⁰⁷⁴. -/
def IsEvenBinary64 (x : ℚ) : Prop :=
  ∃ m e : ℤ, Even m ∧ |m| < 2 ^ 53 ∧ -1074 ≤ e ∧ (2 ^ 52 ≤ |m| ∨ e = -1074) ∧ x = m * 2 ^ e

/-- The second number is the first one rounded: no number of binary64 is nearer to it, and if
another one is as near, it is the even one of the two. -/
structure RoundsTo (x y : ℚ) : Prop where
  isBinary64 : IsBinary64 y
  nearest (z : ℚ) : IsBinary64 z → |x - y| ≤ |x - z|
  even (z : ℚ) : IsBinary64 z → z ≠ y → |x - z| = |x - y| → IsEvenBinary64 y

@[simp] theorem cast_twoTo (k : Nat) : (twoTo k : ℚ) = 2 ^ k := Nat.cast_pow 2 k

/-- With 53 digits up to a place, no number of binary64 lies between a number and its neighbour. -/
theorem IsBinary64.le_or_ge {z : ℚ} (hz : IsBinary64 z) {q : Nat} (hq : 2 ^ 52 ≤ q) (e : ℤ) :
    z ≤ q * 2 ^ e ∨ (q + 1) * 2 ^ e ≤ z := by
  obtain ⟨m, f, hm, -, rfl⟩ := hz
  have hpos : (0 : ℚ) < 2 ^ e := by positivity
  by_cases hlt : f < e
  · -- the digits end further behind, so the number is too small
    left
    have hm : (m : ℚ) ≤ 2 ^ 53 := by exact_mod_cast (lt_of_abs_lt hm).le
    have hf : (2 : ℚ) ^ f ≤ 2 ^ (e - 1) := zpow_le_zpow_right₀ (by norm_num) (by omega)
    have hq : (2 : ℚ) ^ 52 ≤ q := by exact_mod_cast hq
    calc (m : ℚ) * 2 ^ f
        ≤ 2 ^ 53 * 2 ^ (e - 1) := mul_le_mul hm hf (by positivity) (by positivity)
      _ = 2 ^ 52 * 2 ^ e := by rw [zpow_sub_one₀ (by norm_num)]; ring
      _ ≤ q * 2 ^ e := mul_le_mul_of_nonneg_right hq hpos.le
  · -- both are whole multiples of the same place
    obtain ⟨k, hk⟩ := Int.eq_ofNat_of_zero_le (Int.sub_nonneg.mpr (not_lt.mp hlt))
    obtain rfl : f = k + e := by omega
    have hwhole : (m : ℚ) * 2 ^ ((k : ℤ) + e) = (m * 2 ^ k : ℤ) * 2 ^ e := by
      rw [zpow_add₀ (by norm_num), zpow_natCast]
      push_cast
      ring
    rw [hwhole]
    rcases lt_or_ge (q : ℤ) (m * 2 ^ k) with h | h
    · exact .inr (mul_le_mul_of_nonneg_right (by exact_mod_cast h) hpos.le)
    · exact .inl (mul_le_mul_of_nonneg_right (by exact_mod_cast h) hpos.le)

section

variable {m : Nat} {e : ℤ}

theorem isBinary64_natCast_mul (hm : m ≤ 2 ^ 53) (he : -1074 ≤ e) : IsBinary64 (m * 2 ^ e) := by
  rcases Nat.eq_or_lt_of_le hm with rfl | hlt
  · refine ⟨2 ^ 52, e + 1, by norm_num, by omega, ?_⟩
    rw [zpow_add_one₀ (by norm_num)]
    push_cast
    ring
  · refine ⟨m, e, ?_, he, by push_cast; rfl⟩
    rw [Nat.abs_cast]
    exact_mod_cast hlt

theorem isEvenBinary64_natCast_mul (heven : m % 2 = 0) (hle : 2 ^ 52 ≤ m) (hm : m ≤ 2 ^ 53)
    (he : -1074 ≤ e) : IsEvenBinary64 (m * 2 ^ e) := by
  rcases Nat.eq_or_lt_of_le hm with rfl | hlt
  · refine ⟨2 ^ 52, e + 1, by decide, by norm_num, by omega, .inl (by norm_num), ?_⟩
    rw [zpow_add_one₀ (by norm_num)]
    push_cast
    ring
  · refine ⟨m, e, ?_, ?_, he, .inl ?_, by push_cast; rfl⟩
    · exact_mod_cast Nat.even_iff.mpr heven
    · rw [Nat.abs_cast]
      exact_mod_cast hlt
    · rw [Nat.abs_cast]
      exact_mod_cast hle

end

/-- An even multiple of a place is an even multiple of every place behind it. -/
theorem exists_two_mul_of_even {n e f : ℤ} (hn : Even n) (hle : e ≤ f) :
    ∃ k : ℤ, (n : ℚ) * 2 ^ f = (2 * k : ℤ) * 2 ^ e := by
  obtain ⟨l, rfl⟩ := hn
  obtain ⟨j, hj⟩ := Int.eq_ofNat_of_zero_le (Int.sub_nonneg.mpr hle)
  obtain rfl : f = j + e := by omega
  refine ⟨l * 2 ^ j, ?_⟩
  rw [zpow_add₀ (by norm_num), zpow_natCast]
  push_cast
  ring

/-- Between two numbers with even last digits there is a third one, which is the neighbour of the
one with more digits. -/
theorem IsEvenBinary64.exists_between {y y' : ℚ} (hy : IsEvenBinary64 y) (hy' : IsEvenBinary64 y')
    (hlt : y < y') : ∃ z, IsBinary64 z ∧ y < z ∧ z < y' := by
  obtain ⟨m, e, hm, hsize, he, -, rfl⟩ := hy
  obtain ⟨m', e', hm', hsize', he', -, rfl⟩ := hy'
  rcases le_total e e' with hle | hle
  · have hpos : (0 : ℚ) < 2 ^ e := by positivity
    obtain ⟨k, hk⟩ := exists_two_mul_of_even hm' hle
    obtain ⟨l, rfl⟩ := hm
    rw [hk, mul_lt_mul_iff_left₀ hpos, Int.cast_lt] at hlt
    refine ⟨(l + l + 1 : ℤ) * 2 ^ e, ⟨_, e, ?_, he, rfl⟩, ?_, ?_⟩
    · rw [abs_lt] at hsize ⊢
      omega
    · rw [mul_lt_mul_iff_left₀ hpos, Int.cast_lt]
      omega
    · rw [hk, mul_lt_mul_iff_left₀ hpos, Int.cast_lt]
      omega
  · have hpos : (0 : ℚ) < 2 ^ e' := by positivity
    obtain ⟨k, hk⟩ := exists_two_mul_of_even hm hle
    obtain ⟨l, rfl⟩ := hm'
    rw [hk, mul_lt_mul_iff_left₀ hpos, Int.cast_lt] at hlt
    refine ⟨(l + l - 1 : ℤ) * 2 ^ e', ⟨_, e', ?_, he', rfl⟩, ?_, ?_⟩
    · rw [abs_lt] at hsize' ⊢
      omega
    · rw [hk, mul_lt_mul_iff_left₀ hpos, Int.cast_lt]
      omega
    · rw [mul_lt_mul_iff_left₀ hpos, Int.cast_lt]
      omega

namespace RoundsTo

variable {x x' y y' : ℚ}

theorem self (hx : IsBinary64 x) : RoundsTo x x := by
  refine ⟨hx, fun z _ => ?_, fun z _ hne heq => absurd ?_ hne⟩
  · rw [sub_self, abs_zero]
    exact abs_nonneg _
  · rw [sub_self, abs_zero, abs_eq_zero, sub_eq_zero] at heq
    exact heq.symm

/-- Between two neighbours a number is rounded to the nearer one. -/
theorem of_neighbours {lo hi : ℚ} (hlo : lo ≤ x) (hhi : x ≤ hi)
    (hgap : ∀ z, IsBinary64 z → z ≤ lo ∨ hi ≤ z) (hy : IsBinary64 y)
    (hnear : y = lo ∧ x - lo ≤ hi - x ∨ y = hi ∧ hi - x ≤ x - lo)
    (htie : x - lo = hi - x → IsEvenBinary64 y) : RoundsTo x y := by
  have hbelow (z : ℚ) (hz : z ≤ lo) : |x - z| = x - z := abs_of_nonneg (by linarith)
  have habove (z : ℚ) (hz : hi ≤ z) : |x - z| = z - x := by
    rw [abs_sub_comm, abs_of_nonneg (by linarith)]
  rcases hnear with ⟨rfl, hle⟩ | ⟨rfl, hle⟩
  · have hdist : |x - y| = x - y := hbelow y le_rfl
    refine ⟨hy, fun z hz => ?_, fun z hz hne heq => htie ?_⟩
    · rcases hgap z hz with h | h
      · rw [hdist, hbelow z h]
        linarith
      · rw [hdist, habove z h]
        linarith
    · rcases hgap z hz with h | h
      · rw [hdist, hbelow z h] at heq
        exact absurd (by linarith) hne
      · rw [hdist, habove z h] at heq
        linarith
  · have hdist : |x - y| = y - x := habove y le_rfl
    refine ⟨hy, fun z hz => ?_, fun z hz hne heq => htie ?_⟩
    · rcases hgap z hz with h | h
      · rw [hdist, hbelow z h]
        linarith
      · rw [hdist, habove z h]
        linarith
    · rcases hgap z hz with h | h
      · rw [hdist, hbelow z h] at heq
        linarith
      · rw [hdist, habove z h] at heq
        exact absurd (by linarith) hne

/-- Rounding keeps the order. Of two numbers that are rounded in reverse order the smaller one would
not be below the middle between the results, and the greater one not above it. -/
theorem mono (hlt : x < x') (h : RoundsTo x y) (h' : RoundsTo x' y') : y ≤ y' := by
  by_contra! hgt
  have hsmaller : (x - y) ^ 2 ≤ (x - y') ^ 2 := sq_le_sq.mpr (h.nearest y' h'.isBinary64)
  have hgreater : (x' - y') ^ 2 ≤ (x' - y) ^ 2 := sq_le_sq.mpr (h'.nearest y h.isBinary64)
  have hmiddle : y + y' ≤ 2 * x := by nlinarith
  have hmiddle' : 2 * x' ≤ y + y' := by nlinarith
  linarith

/-- A number is not rounded to two others: it would be halfway between them, and nearer to a third.
-/
theorem le (h : RoundsTo x y) (h' : RoundsTo x y') : y' ≤ y := by
  by_contra! hlt
  have hsame : |x - y'| = |x - y| :=
    le_antisymm (h'.nearest y h.isBinary64) (h.nearest y' h'.isBinary64)
  have hmiddle : x - y = y' - x := by
    rcases abs_eq_abs.mp hsame with heq | heq <;> linarith
  have hy : IsEvenBinary64 y := h.even y' h'.isBinary64 hlt.ne' hsame
  have hy' : IsEvenBinary64 y' := h'.even y h.isBinary64 hlt.ne hsame.symm
  obtain ⟨z, hz, hlow, hhigh⟩ := hy.exists_between hy' hlt
  have hnearer : |x - z| < |x - y| := by
    rw [abs_of_nonneg (show 0 ≤ x - y by linarith), abs_lt]
    constructor <;> linarith
  exact absurd (h.nearest z hz) (not_le.mpr hnearer)

theorem unique (h : RoundsTo x y) (h' : RoundsTo x y') : y = y' :=
  le_antisymm (h'.le h) (h.le h')

end RoundsTo

/-- A number with more than 53 binary digits has exactly 53 in front of those in excess. -/
theorem div_excess_mem {n : Nat} (h : 2 ^ 53 ≤ n) :
    2 ^ 52 ≤ n / twoTo (excessDigits n) ∧ n / twoTo (excessDigits n) < 2 ^ 53 := by
  have hn : n ≠ 0 := Nat.ne_of_gt (Nat.lt_of_lt_of_le (Nat.two_pow_pos 53) h)
  have hlog : 53 ≤ n.log2 := (Nat.le_log2 hn).mpr h
  have hexcess : excessDigits n + 52 = n.log2 := by
    simp only [excessDigits]
    omega
  constructor
  · rw [Nat.le_div_iff_mul_le (twoTo_pos _)]
    calc 2 ^ 52 * twoTo (excessDigits n)
        = 2 ^ n.log2 := by rw [← hexcess, Nat.pow_add, Nat.mul_comm]; rfl
      _ ≤ n := Nat.log2_self_le hn
  · rw [Nat.div_lt_iff_lt_mul (twoTo_pos _)]
    calc n
        < 2 ^ (n.log2 + 1) := Nat.lt_log2_self
      _ = 2 ^ 53 * twoTo (excessDigits n) := by
        rw [← hexcess, Nat.add_assoc, Nat.pow_add, Nat.mul_comm]
        rfl

/-- A numerator with 53 digits in front of the place `2 ^ k` is rounded at this place. -/
theorem roundsTo_nearest {n k j : Nat} (hlow : 2 ^ 52 ≤ n / twoTo k) (hhigh : n / twoTo k < 2 ^ 53)
    (hj : j ≤ 1074) : RoundsTo (n / 2 ^ j) (nearest n (twoTo k) * 2 ^ ((k : ℤ) - j)) := by
  have he : -1074 ≤ (k : ℤ) - j := by omega
  have hpos : (0 : ℚ) < 2 ^ j := by positivity
  have hunit : (2 : ℚ) ^ ((k : ℤ) - j) = twoTo k / 2 ^ j := by
    rw [zpow_sub₀ (by norm_num), zpow_natCast, zpow_natCast, cast_twoTo]
  -- the distances from both neighbours are the remainder and what it lacks to a unit
  have hparts : (n : ℚ) = (n / twoTo k : ℕ) * twoTo k + (n % twoTo k : ℕ) := by
    exact_mod_cast (Nat.div_add_mod' n (twoTo k)).symm
  have hbelow : (n : ℚ) / 2 ^ j - (n / twoTo k : ℕ) * 2 ^ ((k : ℤ) - j) =
      (n % twoTo k : ℕ) / 2 ^ j := by
    rw [hunit]
    linear_combination (1 / 2 ^ j : ℚ) * hparts
  have habove : ((n / twoTo k : ℕ) + 1) * 2 ^ ((k : ℤ) - j) - (n : ℚ) / 2 ^ j =
      (twoTo k - (n % twoTo k : ℕ)) / 2 ^ j := by
    rw [hunit]
    linear_combination (-1 / 2 ^ j : ℚ) * hparts
  have hmod : ((n % twoTo k : ℕ) : ℚ) ≤ twoTo k := by
    exact_mod_cast (Nat.mod_lt n (twoTo_pos k)).le
  have hcases := nearest_cases n (twoTo k)
  have hle : nearest n (twoTo k) ≤ 2 ^ 53 := by omega
  have hge : 2 ^ 52 ≤ nearest n (twoTo k) := by omega
  refine .of_neighbours ?_ ?_ (fun z hz => hz.le_or_ge hlow ((k : ℤ) - j))
    (isBinary64_natCast_mul hle he) ?_ fun htie => ?_
  · rw [← sub_nonneg, hbelow]
    positivity
  · rw [← sub_nonneg, habove]
    exact div_nonneg (by linarith) hpos.le
  · rw [hbelow, habove]
    rcases hcases with ⟨h, hr⟩ | ⟨h, hr⟩
    · have hr : (2 : ℚ) * (n % twoTo k : ℕ) ≤ twoTo k := by exact_mod_cast hr
      exact .inl ⟨by rw [h], by gcongr; linarith⟩
    · have hr : (twoTo k : ℚ) ≤ 2 * (n % twoTo k : ℕ) := by exact_mod_cast hr
      exact .inr ⟨by rw [h, Nat.cast_add_one], by gcongr; linarith⟩
  · rw [hbelow, habove, div_left_inj' hpos.ne'] at htie
    have hr : (2 : ℚ) * (n % twoTo k : ℕ) = twoTo k := by linarith
    exact isEvenBinary64_natCast_mul (nearest_mod_two (by exact_mod_cast hr)) hge hle he

/-- Rounding to 53 binary digits is rounding to the nearest number of binary64, for the numerators
of fractions too. -/
theorem roundsTo_round53 (n : Nat) {j : Nat} (hj : j ≤ 1074) :
    RoundsTo (n / 2 ^ j) (round53 n / 2 ^ j) := by
  have hunit (m k : Nat) : (m : ℚ) * 2 ^ ((k : ℤ) - j) = (m * twoTo k : ℕ) / 2 ^ j := by
    rw [zpow_sub₀ (by norm_num), zpow_natCast, zpow_natCast, Nat.cast_mul, cast_twoTo]
    ring
  rcases Nat.lt_or_ge n (2 ^ 53) with hlt | hge
  · have hexact := isBinary64_natCast_mul hlt.le (e := ((0 : Nat) : ℤ) - j) (by omega)
    rw [hunit, twoTo_zero, Nat.mul_one] at hexact
    rw [round53_of_lt hlt]
    exact .self hexact
  · obtain ⟨hlow, hhigh⟩ := div_excess_mem hge
    have hround := roundsTo_nearest hlow hhigh hj
    rwa [hunit] at hround

theorem round53_mono {m n : Nat} (h : m ≤ n) : round53 m ≤ round53 n := by
  rcases Nat.eq_or_lt_of_le h with rfl | hlt
  · exact le_rfl
  · have hm := roundsTo_round53 m (Nat.zero_le 1074)
    have hn := roundsTo_round53 n (Nat.zero_le 1074)
    simp only [pow_zero, div_one] at hm hn
    exact_mod_cast hm.mono (by exact_mod_cast hlt) hn

end Coinage
