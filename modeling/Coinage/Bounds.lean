import Coinage.Text.Decimal

/-!
# Repetition bounds

How often a node of a pattern is repeated: at least `lo` and at most `hi` times. Bounds read from
a pattern satisfy `0 ≤ lo ≤ hi`; nothing here rests on it.
-/

namespace Coinage

structure Bounds where
  lo : Int
  hi : Int
deriving DecidableEq, Repr

namespace Bounds

def once : Bounds := ⟨1, 1⟩

def optional : Bounds := ⟨0, 1⟩

/-- The suffix that stands for the bounds behind a token of a pattern: nothing for exactly once, a
question mark for once or not at all, otherwise both numbers in braces. -/
def suffix (b : Bounds) : List Char :=
  if b = once then []
  else if b = optional then ['?']
  else '\x7b' :: (signedDecimal b.lo ++ ',' :: (signedDecimal b.hi ++ ['\x7d']))

end Bounds

end Coinage
