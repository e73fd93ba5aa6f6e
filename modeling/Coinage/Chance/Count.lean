import Coinage.Bounds
import Coinage.Chance.Draws
import Coinage.Number.Rounding

/-!
# Counting repetitions

The number of repetitions between two bounds is fixed by one fraction, spread evenly over the width
of the bounds and rounded to the nearest number: the bounds themselves get half a share each.
Between equal bounds there is nothing to draw. The arithmetic is that of binary64, so the width has
to be less than 2¹⁰²⁴ after rounding.
-/

namespace Coinage

/-- The number that the fraction `i / 2⁵³` of the width stands for, with halves rounded up and the
result kept within the bounds; none if the width is too large. -/
def Bounds.share (b : Bounds) (i : Nat) : Option Int :=
  let width := roundInt53 (b.hi - b.lo)
  if twoTo 1024 ≤ width.natAbs then none
  else
    let spread := roundInt53 (roundInt53 (i * width) + twoTo 52)
    some (min (max (b.lo + spread / twoTo 53) b.lo) b.hi)

/-- Draws a number of repetitions; the draw is made even if the width is too large. -/
def Bounds.count {ρ : Type} [Draws ρ] (b : Bounds) (r : ρ) : Option Int × ρ :=
  if b.lo = b.hi then (some b.lo, r)
  else
    let (i, r) := Draws.fraction r
    (b.share i, r)

end Coinage
