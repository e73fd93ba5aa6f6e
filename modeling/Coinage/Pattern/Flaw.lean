import Coinage.Text.Decimal
import Coinage.Text.Quoted

/-!
# Flaws of patterns

What can be wrong with the text of a pattern, and where. Numerals are limited in length; one that
is too long is reported by its length alone, without a place.
-/

namespace Coinage

def maxNesting : Nat := 100

inductive Flaw where
  | unexpectedEnd
  | badIdentifier
  | badNumber
  | emptyChoice
  /-- Another character stands where this one belongs. -/
  | missing (c : Char)
  /-- The least number of repetitions is greater than the greatest. -/
  | inverted (lo hi : Nat)
  | tooDeep
deriving DecidableEq, Repr

def Flaw.message : Flaw → List Char
  | .unexpectedEnd => "unexpected end of pattern".toList
  | .badIdentifier => "invalid identifier".toList
  | .badNumber => "invalid number".toList
  | .emptyChoice => "empty alternation group".toList
  | .missing c => "expected '".toList ++ [c, '\'']
  | .inverted lo hi =>
    "range minimum ".toList ++ decimal lo ++ " exceeds maximum ".toList ++ decimal hi
  | .tooDeep => "groups nested deeper than ".toList ++ decimal maxNesting

inductive Stop where
  | flaw (what : Flaw) (pos : Nat)
  /-- A numeral has more digits than are allowed. -/
  | digits (count : Nat)
deriving DecidableEq, Repr

structure PatternError where
  flaw : Flaw
  source : List Char
  pos : Nat
deriving DecidableEq, Repr

/-- The wording of the flaw, with its place unless the pattern is empty. -/
def PatternError.message (e : PatternError) : List Char :=
  if e.source = [] then e.flaw.message
  else e.flaw.message ++ " at position ".toList ++ decimal e.pos ++ " in ".toList ++ quoted e.source

inductive Refusal where
  | pattern (e : PatternError)
  | digits (count : Nat)
deriving DecidableEq, Repr

def Stop.refusal (source : List Char) : Stop → Refusal
  | .flaw what pos => .pattern ⟨what, source, pos⟩
  | .digits count => .digits count

def Refusal.message : Refusal → List Char
  | .pattern e => e.message
  | .digits count => overlongNumeral count

/-- The refusal is due to the pattern, and not to the length of a numeral. -/
def Refusal.isFlaw : Refusal → Bool
  | .pattern _ => true
  | .digits _ => false

end Coinage
