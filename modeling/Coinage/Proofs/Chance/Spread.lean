import Coinage.Chance.Twister
import Coinage.Proofs.Chance.Count
import Coinage.Proofs.Number.Nearest
import Mathlib

/-!
# How fractions are spread over bounds

Three numbers are rounded between a fraction and the count it stands for: the width of the bounds,
its product with the fraction, and the sum of this and one half. Each rounding is that of binary64,
and so each keeps the order of the fractions. The counts begin at the lower bound, never go back and
never leave the bounds, and no number is left out as long as the roundings are finer than the
numbers are apart.
-/

namespace Coinage

theorem lt_pow_of_lt_twoTo {n j k : Nat} (h : n < twoTo (j + k)) : (n : ℚ) / 2 ^ j < 2 ^ k := by
  rw [div_lt_iff₀ (by positivity), ← pow_add, Nat.add_comm, ← cast_twoTo]
  exact_mod_cast h

/-- Whole numbers are rounded to the finite ones of binary64 up to half a unit below the limit. -/
theorem round53_lt_iff {n : Nat} :
    round53 n < twoTo 1024 ↔ (n : Int) < (twoTo 1024 : Int) - twoTo 970 := by
  have hhalf : twoTo 971 = twoTo 970 * 2 := twoTo_succ 970
  have hfull : twoTo (53 + 971) = twoTo 1024 := rfl
  constructor
  · intro h
    by_contra! hge
    have hle : twoTo 1024 - twoTo 970 ≤ n := by omega
    have hleast : round53 (twoTo 1024 - twoTo 970) = twoTo 1024 := by decide +kernel
    have hmono := round53_mono hle
    omega
  · intro h
    exact round53_lt (k := 971) (by omega)

/-- A proper fraction of a finite number is finite, and so is one half more. -/
theorem round53_fraction_lt {i w : Nat} (hi : i < twoTo 53) (hw : w < twoTo 1024) :
    round53 (i * w) < twoTo (53 + 1024) ∧
      round53 (round53 (i * w) + twoTo 52) < twoTo (53 + 1024) := by
  have hfull : twoTo (53 + 1024) = twoTo 53 * twoTo 1024 := twoTo_add 53 1024
  have h₅₃ : twoTo 53 = 9007199254740992 := rfl
  have h₅₂ : twoTo 52 = 4503599627370496 := rfl
  -- the fraction lacks at least a step to one, and the number at least one to the limit
  obtain ⟨m, hm⟩ : ∃ m, twoTo 53 = i + 1 + m := Nat.exists_eq_add_of_le hi
  have hproduct : i * w + twoTo 1024 + (i + m) ≤ twoTo 53 * twoTo 1024 :=
    calc i * w + twoTo 1024 + (i + m)
        = i * (w + 1) + twoTo 1024 + m * 1 := by ring
      _ ≤ i * twoTo 1024 + twoTo 1024 + m * twoTo 1024 :=
        Nat.add_le_add (Nat.add_le_add_right (Nat.mul_le_mul_left i hw) _)
          (Nat.mul_le_mul_left m (twoTo_pos 1024))
      _ = twoTo 53 * twoTo 1024 := by rw [hm]; ring
  have hround := round53_le (n := i * w) (k := 1024) (by omega)
  exact ⟨by omega, round53_lt (by omega)⟩

namespace Bounds

/-- The count that the fraction `i / 2⁵³` stands for in the arithmetic of binary64: the width of the
bounds, its product with the fraction, and the sum of this and one half are rounded one after the
other, and none of them is too large to be finite. The whole part of the sum is counted from the
lower bound on and kept within the bounds. -/
def Counts (b : Bounds) (i : Nat) (n : Int) : Prop :=
  ∃ width product sum : ℚ, RoundsTo (b.hi - b.lo : Int) width ∧
    RoundsTo (i / 2 ^ 53 * width) product ∧ RoundsTo (product + 1 / 2) sum ∧
    width < 2 ^ 1024 ∧ product < 2 ^ 1024 ∧ sum < 2 ^ 1024 ∧
    n = min (max (b.lo + ⌊sum⌋) b.lo) b.hi

theorem Counts.unique {b : Bounds} {i : Nat} {n m : Int} (h : b.Counts i n) (h' : b.Counts i m) :
    n = m := by
  obtain ⟨width, product, sum, hwidth, hproduct, hsum, -, -, -, rfl⟩ := h
  obtain ⟨width', product', sum', hwidth', hproduct', hsum', -, -, -, rfl⟩ := h'
  obtain rfl := hwidth.unique hwidth'
  obtain rfl := hproduct.unique hproduct'
  obtain rfl := hsum.unique hsum'
  rfl

section

variable {b : Bounds} {w : Nat} (hw : b.hi - b.lo = w)
include hw

theorem tooWide_iff : b.TooWide ↔ twoTo 1024 ≤ round53 w := by
  rw [← Nat.not_lt, round53_lt_iff, ← hw, not_lt, TooWide]

/-- A width that is too large is rounded to a number that is not finite, and nothing is counted. -/
theorem share_of_tooWide (h : b.TooWide) :
    (∃ width : ℚ, RoundsTo (b.hi - b.lo : Int) width ∧ 2 ^ 1024 ≤ width) ∧
      ∀ i, b.share i = none := by
  have hlarge : twoTo 1024 ≤ round53 w := (tooWide_iff hw).mp h
  have hwidth := roundsTo_round53 w (Nat.zero_le 1074)
  rw [pow_zero, div_one, div_one] at hwidth
  refine ⟨⟨round53 w, by rwa [hw], ?_⟩, fun i => ?_⟩
  · rw [← cast_twoTo]
    exact_mod_cast hlarge
  · simp only [share, hw, roundInt53_natCast, Int.natAbs_natCast, if_pos hlarge]

variable (hfits : round53 w < twoTo 1024)
include hfits

theorem counts_of_share {i : Nat} (hi : i < twoTo 53) {n : Int} (h : b.share i = some n) :
    b.Counts i n := by
  have hwidth := roundsTo_round53 w (Nat.zero_le 1074)
  have hproduct := roundsTo_round53 (i * round53 w) (show 53 ≤ 1074 by decide)
  have hsum := roundsTo_round53 (round53 (i * round53 w) + twoTo 52) (show 53 ≤ 1074 by decide)
  rw [pow_zero, div_one, div_one] at hwidth
  have hmul : ((i * round53 w : Nat) : ℚ) / 2 ^ 53 = i / 2 ^ 53 * round53 w := by
    push_cast
    ring
  have hadd : ((round53 (i * round53 w) + twoTo 52 : Nat) : ℚ) / 2 ^ 53 =
      round53 (i * round53 w) / 2 ^ 53 + 1 / 2 := by
    rw [Nat.cast_add, cast_twoTo]
    ring
  rw [hmul] at hproduct
  rw [hadd] at hsum
  have hfloor : ⌊(round53 (round53 (i * round53 w) + twoTo 52) : ℚ) / 2 ^ 53⌋ =
      (round53 (round53 (i * round53 w) + twoTo 52) / twoTo 53 : Nat) := by
    rw [← cast_twoTo, Rat.floor_natCast_div_natCast]
    rfl
  obtain ⟨hproductFits, hsumFits⟩ := round53_fraction_lt hi hfits
  rw [share_of_width hw hfits, Option.some.injEq] at h
  refine ⟨_, _, _, by rwa [hw], hproduct, hsum, ?_, ?_, ?_, by rw [hfloor, h]⟩
  · rw [← cast_twoTo]
    exact_mod_cast hfits
  · exact lt_pow_of_lt_twoTo hproductFits
  · exact lt_pow_of_lt_twoTo hsumFits

/-- Each step from a fraction to its share keeps the order. -/
theorem share_mono {i j : Nat} {n m : Int} (hij : i ≤ j) (hn : b.share i = some n)
    (hm : b.share j = some m) : n ≤ m := by
  rw [share_of_width hw hfits, Option.some.injEq] at hn hm
  subst hn hm
  have hproduct := round53_mono (Nat.mul_le_mul_right (round53 w) hij)
  have hsum := round53_mono (Nat.add_le_add_right hproduct (twoTo 52))
  have hfloor := Nat.div_le_div_right (c := twoTo 53) hsum
  refine min_le_min_right _ (max_le_max_right _ ?_)
  exact Int.add_le_add_left (Int.ofNat_le.mpr hfloor) b.lo

@[simp] theorem share_zero : b.share 0 = some b.lo := by
  have hhalf : round53 (round53 (0 * round53 w) + twoTo 52) / twoTo 53 = 0 := by
    rw [Nat.zero_mul]
    decide
  have hle : b.lo ≤ b.hi := by omega
  rw [share_of_width hw hfits, hhalf, Int.natCast_zero, Int.add_zero, Int.max_self,
    Int.min_eq_left hle]

end

variable {ρ : Type} [Draws ρ]

/-- The fractions are spread over the whole of the bounds. If their width can be rounded to a number
of binary64, each fraction stands for the one count that it has in binary64, the counts never go
back while the fraction grows, all are within the bounds and the first one is the lower bound; and
up to a width of 2⁵⁰ every number within the bounds is a count. If it cannot, nothing is counted. -/
theorem counts_spread_over_bounds {b : Bounds} (hlt : b.lo < b.hi) :
    (b.TooWide → (∃ width : ℚ, RoundsTo (b.hi - b.lo : Int) width ∧ 2 ^ 1024 ≤ width) ∧
      ∀ r : ρ, b.count r = (none, (Draws.fraction r).2)) ∧
    (¬b.TooWide → ∃ n : Nat → Int,
      (∀ r : ρ, b.count r = (some (n (Draws.fraction r).1), (Draws.fraction r).2)) ∧
      (∀ i < twoTo 53, ∀ k, b.Counts i k ↔ k = n i) ∧
      (∀ i j, i ≤ j → n i ≤ n j) ∧ (∀ i, b.lo ≤ n i ∧ n i ≤ b.hi) ∧ n 0 = b.lo ∧
      (b.hi - b.lo ≤ twoTo 50 → ∀ k, b.lo ≤ k → k ≤ b.hi → ∃ i < twoTo 53, n i = k)) := by
  obtain ⟨w, hw⟩ := Int.eq_ofNat_of_zero_le (Int.sub_nonneg.mpr hlt.le)
  have hcount (r : ρ) : b.count r = (b.share (Draws.fraction r).1, (Draws.fraction r).2) := by
    rw [count, if_neg hlt.ne]
  refine ⟨fun hwide => ?_, fun hnot => ?_⟩
  · obtain ⟨hinfinite, hnone⟩ := share_of_tooWide hw hwide
    exact ⟨hinfinite, fun r => by rw [hcount, hnone]⟩
  · have hfits : round53 w < twoTo 1024 := round53_lt_of_not_tooWide hw hnot
    have hshare (i : Nat) : ∃ n, b.share i = some n := ⟨_, share_of_width hw hfits i⟩
    choose n hn using hshare
    have hcounts (i : Nat) (hi : i < twoTo 53) : b.Counts i (n i) :=
      counts_of_share hw hfits hi (hn i)
    refine ⟨n, fun r => by rw [hcount, hn], fun i hi k => ?_,
      fun i j hij => share_mono hw hfits hij (hn i) (hn j), fun i => share_mem hlt.le (hn i),
      Option.some.inj ((hn 0).symm.trans (share_zero hw hfits)), fun hwidth k hlo hhi => ?_⟩
    · constructor
      · intro hk
        exact hk.unique (hcounts i hi)
      · rintro rfl
        exact hcounts i hi
    · obtain ⟨i, hi, hshare⟩ := exists_share hwidth hlo hhi
      exact ⟨i, hi, Option.some.inj ((hn i).symm.trans hshare)⟩

/-- From two to nine repetitions: the fraction zero stands for two, and some fraction for seven. -/
theorem counts_spread_over_two_to_nine :
    let b : Bounds := ⟨2, 9⟩
    b.lo < b.hi ∧ ¬b.TooWide ∧ b.hi - b.lo ≤ twoTo 50 ∧ ∃ n : Nat → Int,
      (∀ r : Twister, b.count r = (some (n (Draws.fraction r).1), (Draws.fraction r).2)) ∧
      n 0 = 2 ∧ ∃ i < twoTo 53, n i = 7 := by
  intro b
  have hlt : b.lo < b.hi := by decide
  have hnot : ¬b.TooWide := show ¬(twoTo 1024 : Int) - twoTo 970 ≤ 9 - 2 by decide +kernel
  have hwidth : b.hi - b.lo ≤ twoTo 50 := by decide
  obtain ⟨n, hcount, -, -, -, hzero, hall⟩ := (counts_spread_over_bounds (ρ := Twister) hlt).2 hnot
  exact ⟨hlt, hnot, hwidth, n, hcount, hzero, hall hwidth 7 (by decide) (by decide)⟩

end Bounds

end Coinage
