/-!
# Sets of code points

A set of code points is given by the ascending list of the code points at which membership
changes: those before the first are outside, those from the first up to the second are inside,
and so on.
-/

namespace Coinage

/-- The code points at which membership changes, in ascending order. -/
abbrev Boundaries := List Nat

namespace Boundaries

/-- Membership of `n`, when the numbers before the first boundary have membership `inside`. -/
def holdsFrom : Bool → Boundaries → Nat → Bool
  | inside, [], _ => inside
  | inside, b :: bs, n => if n < b then inside else holdsFrom (!inside) bs n

/-- The numbers before the first boundary are outside. -/
def holds (bs : Boundaries) (n : Nat) : Bool := holdsFrom false bs n

end Boundaries

end Coinage
