import Coinage.Text.Numeral

/-!
# Seeds

A seed is an integer, or a request to have one drawn.
-/

namespace Coinage

inductive Seed where
  /-- A fresh seed is to be drawn. -/
  | fresh
  | fixed (seed : Int)
deriving DecidableEq, Repr

/-- A letter of the basic Latin alphabet in lower case; other characters stay as they are. -/
def lowerAscii (c : Char) : Char := c.toLower

def freshSeedWords : List (List Char) :=
  ["auto".toList, "rand".toList, "random".toList, "entropy".toList]

/-- The seed that a text asks for: one of the words for a fresh one, in any case, or an integer. -/
def Seed.read (text : List Char) : Except NumeralError Seed :=
  if freshSeedWords.contains (text.map lowerAscii) then .ok .fresh
  else .fixed <$> readInteger text

def Seed.value (drawn : Int) : Seed → Int
  | .fresh => drawn
  | .fixed seed => seed

end Coinage
