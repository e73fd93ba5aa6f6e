import Coinage.Number.Rounding

/-!
# How far numbers are rounded

Rounding to 53 binary digits goes to one of the two neighbours of a number, and so by at most half
a unit of the last digit. A number that has no more digits stays as it is.
-/

namespace Coinage

theorem twoTo_le_twoTo {i j : Nat} (h : i ≤ j) : twoTo i ≤ twoTo j :=
  Nat.pow_le_pow_right (by decide) h

theorem twoTo_add (j k : Nat) : twoTo (j + k) = twoTo j * twoTo k := Nat.pow_add 2 j k

/-- The nearest whole number is one of the two neighbours, and no further away than the other. -/
theorem nearest_cases (a d : Nat) :
    nearest a d = a / d ∧ 2 * (a % d) ≤ d ∨ nearest a d = a / d + 1 ∧ d ≤ 2 * (a % d) := by
  simp only [nearest]
  split
  · omega
  · split
    · omega
    · split <;> omega

/-- Halfway it is the even one. -/
theorem nearest_mod_two {a d : Nat} (h : 2 * (a % d) = d) : nearest a d % 2 = 0 := by
  simp only [nearest, h, Nat.lt_irrefl, ↓reduceIte]
  split <;> omega

/-- Rounding to a multiple of `d` adds at most half of `d`. -/
theorem nearest_mul_le (a d : Nat) : 2 * (nearest a d * d) ≤ 2 * a + d := by
  have hdiv : a / d * d + a % d = a := Nat.div_add_mod' a d
  have hnext : (a / d + 1) * d = a / d * d + d := Nat.succ_mul _ _
  rcases nearest_cases a d with ⟨h, hmod⟩ | ⟨h, hmod⟩ <;> rw [h] <;> omega

/-- Rounding to a multiple of `d` takes away at most half of `d`. -/
theorem le_nearest_mul (a : Nat) {d : Nat} (hd : 0 < d) : 2 * a ≤ 2 * (nearest a d * d) + d := by
  have hdiv : a / d * d + a % d = a := Nat.div_add_mod' a d
  have hnext : (a / d + 1) * d = a / d * d + d := Nat.succ_mul _ _
  have hlt : a % d < d := Nat.mod_lt a hd
  rcases nearest_cases a d with ⟨h, hmod⟩ | ⟨h, hmod⟩ <;> rw [h] <;> omega

theorem excessDigits_le {n k : Nat} (h : n < twoTo (53 + k)) : excessDigits n ≤ k := by
  by_cases hn : n = 0
  · subst hn
    exact Nat.zero_le k
  · have hlog : n.log2 < 53 + k := (Nat.log2_lt hn).mpr h
    simp only [excessDigits]
    omega

/-- A number of at most `k` binary digits more than 53 is rounded up by at most half of `2 ^ k`. -/
theorem round53_le {n k : Nat} (h : n < twoTo (53 + k)) : 2 * round53 n ≤ 2 * n + twoTo k :=
  calc 2 * round53 n
      ≤ 2 * n + twoTo (excessDigits n) := nearest_mul_le _ _
    _ ≤ 2 * n + twoTo k := Nat.add_le_add_left (twoTo_le_twoTo (excessDigits_le h)) _

/-- Such a number is rounded down by at most half of `2 ^ k`. -/
theorem le_round53 {n k : Nat} (h : n < twoTo (53 + k)) : 2 * n ≤ 2 * round53 n + twoTo k :=
  calc 2 * n
      ≤ 2 * round53 n + twoTo (excessDigits n) := le_nearest_mul n (twoTo_pos _)
    _ ≤ 2 * round53 n + twoTo k := Nat.add_le_add_left (twoTo_le_twoTo (excessDigits_le h)) _

/-- A number that lacks more than half a unit to the next power of two is not rounded up to it. -/
theorem round53_lt {n k : Nat} (h : 2 * n + twoTo k < 2 * twoTo (53 + k)) :
    round53 n < twoTo (53 + k) := by
  have hround := round53_le (n := n) (k := k) (by omega)
  omega

/-- A number of at most 53 binary digits needs no rounding. -/
theorem round53_of_lt {n : Nat} (h : n < twoTo 53) : round53 n = n := by
  have hexcess : excessDigits n = 0 := Nat.le_zero.mp (excessDigits_le h)
  simp [round53, hexcess, nearest, Nat.mod_one]

@[simp] theorem roundInt53_natCast (n : Nat) : roundInt53 n = round53 n :=
  if_neg (Int.not_lt.mpr (Int.natCast_nonneg n))

end Coinage
