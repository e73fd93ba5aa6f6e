import Coinage.Number.Binary64
import Coinage.Text.Numeral

/-!
# Written numbers

A binary64 number written by hand: white space around it, one sign, decimal digits of any script
with at most one point among them, and perhaps a power of ten; or a word for infinity or for no
number.
-/

namespace Coinage

/-- The exponent at the end of a number, which may be left out. -/
def readExponent (cs : List Char) : Option Int :=
  match cs with
  | [] => some 0
  | e :: cs =>
    let (negative, ds) := Numeral.sign cs
    if (e == 'e' || e == 'E') && ds ≠ [] && ds.all Char.isDigit then
      some (if negative then -digitsValue ds else digitsValue ds)
    else none

/-- The number that digits and a point denote, rounded to the nearest one. -/
def readDecimal (negative : Bool) (cs : List Char) : Option Binary64 := do
  let whole := cs.takeWhile Char.isDigit
  let behind := cs.dropWhile Char.isDigit
  let (part, behind) := match behind with
    | '.' :: r => (r.takeWhile Char.isDigit, r.dropWhile Char.isDigit)
    | r => ([], r)
  if whole = [] && part = [] then none
  else
    let power ← readExponent behind
    return .ofDecimal negative (digitsValue (whole ++ part)) (power - part.length)

def readReal (cs : List Char) : Option Binary64 := do
  let cs := trim isAsciiBlank (← Numeral.asciiForm cs)
  let (negative, cs) := Numeral.sign cs
  let word := cs.map Char.toLower
  if word = "inf".toList || word = "infinity".toList then return .infinite negative
  else if word = "nan".toList then return .notANumber
  else readDecimal negative cs

end Coinage
