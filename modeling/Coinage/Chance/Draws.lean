import Coinage.Number.Power

/-!
# Sources of chance

Generation draws from a source of two kinds of numbers: fractions in steps of 2⁻⁵³, given by their
numerators, and choices among a number of things.
-/

namespace Coinage

/-- A source of random draws, which gives way to a new source at each draw. -/
class Draws (ρ : Type) where
  /-- The numerator of a fraction with the denominator 2⁵³. -/
  fraction : ρ → Nat × ρ
  /-- A number below the given one. -/
  below : Nat → ρ → Nat × ρ

/-- A source whose fractions are less than one and whose choices are among the things given. -/
class LawfulDraws (ρ : Type) [Draws ρ] : Prop where
  fraction_lt (r : ρ) : (Draws.fraction r).1 < twoTo 53
  below_lt (n : Nat) (r : ρ) : 0 < n → (Draws.below n r).1 < n

end Coinage
