import Coinage.Number.Power

/-!
# Rounding to 53 binary digits

Numbers are rounded to 53 significant binary digits, to the nearest such number and halfway to the
one whose last digit is even. This is the rounding of binary64 arithmetic where it neither
overflows nor underflows.
-/

namespace Coinage

/-- The whole number nearest to `a / d`; halfway, the even one. -/
def nearest (a d : Nat) : Nat :=
  if 2 * (a % d) < d then a / d
  else if d < 2 * (a % d) then a / d + 1
  else if a / d % 2 = 0 then a / d else a / d + 1

/-- How many binary digits `n` has beyond the first 53. -/
def excessDigits (n : Nat) : Nat := n.log2 + 1 - 53

def round53 (n : Nat) : Nat := nearest n (twoTo (excessDigits n)) * twoTo (excessDigits n)

/-- An integer rounded to 53 significant binary digits; the sign does not matter. -/
def roundInt53 (i : Int) : Int := if i < 0 then -(round53 i.natAbs) else round53 i.natAbs

end Coinage
