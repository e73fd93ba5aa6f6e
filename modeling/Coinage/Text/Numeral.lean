import Coinage.Text.Blank
import Coinage.Text.Decimal
import Coinage.Text.Digit
import Coinage.Text.Quoted

/-!
# Numerals in arguments

An integer written by hand: white space around it, one sign, and decimal digits of any script, with
single underscores between them. A text of the first 128 code points has the white space of that
set; any other text that of Unicode.
-/

namespace Coinage

inductive NumeralError where
  | malformed
  /-- There are more digits than are allowed. -/
  | overlong (count : Nat)
deriving DecidableEq, Repr

namespace Numeral

/-- A character as it counts in a numeral: digits and white space of all scripts are the same as
those of the first 127 code points. Anything else from there on has no counterpart. -/
def asciiForm? (c : Char) : Option Char :=
  if c.toNat < 127 then some c
  else if isBlank c then some ' '
  else (digitValue? c).map digitChar

def asciiForm (cs : List Char) : Option (List Char) :=
  if cs.all (·.toNat < 128) then some cs else cs.mapM asciiForm?

/-- The digits at the beginning of a text, without the single underscores between them, and the
rest of the text; the flag tells whether a digit comes before. An underscore without a digit on
either side is a fault. -/
def digitRun : Bool → List Char → Option (List Char × List Char)
  | behindDigit, '_' :: cs =>
    if behindDigit && cs.head?.elim false Char.isDigit then digitRun false cs else none
  | _, c :: cs =>
    if c.isDigit then (digitRun true cs).map fun p => (c :: p.1, p.2)
    else some ([], c :: cs)
  | _, [] => some ([], [])

def sign : List Char → Bool × List Char
  | '-' :: cs => (true, cs)
  | '+' :: cs => (false, cs)
  | cs => (false, cs)

end Numeral

def readInteger (cs : List Char) : Except NumeralError Int :=
  match Numeral.asciiForm cs with
  | none => .error .malformed
  | some cs =>
    let (negative, cs) := Numeral.sign (cs.dropWhile isAsciiBlank)
    match Numeral.digitRun false cs with
    | none => .error .malformed
    | some (ds, rest) =>
      if maxDigits < ds.length then .error (.overlong ds.length)
      else if ds = [] || !(rest.all isAsciiBlank) then .error .malformed
      else .ok (if negative then -(digitsValue ds) else digitsValue ds)

def badNumeral (base : Nat) (text : List Char) : List Char :=
  "invalid literal for int() with base ".toList ++ decimal base ++ ": ".toList
    ++ (quoted text).take 200

def NumeralError.message (text : List Char) : NumeralError → List Char
  | .malformed => badNumeral 10 text
  | .overlong count => overlongNumeral count

/-! ### Other bases -/

namespace Numeral

/-- The value of a digit or a letter of either case: ten and more for letters. -/
def letterValue? (c : Char) : Option Nat :=
  if c.isDigit then some (c.toNat - 48)
  else if 'a' ≤ c && c ≤ 'z' then some (c.toNat - 87)
  else if 'A' ≤ c && c ≤ 'Z' then some (c.toNat - 55)
  else none

def isDigitIn (base : Nat) (c : Char) : Bool := (letterValue? c).elim false (· < base)

def valueIn (base : Nat) (ds : List Char) : Nat :=
  ds.foldl (fun n c => base * n + (letterValue? c).getD 0) 0

def baseMark? (base : Nat) : Option Char :=
  if base = 2 then some 'b' else if base = 8 then some 'o' else if base = 16 then some 'x' else none

def withoutMark (base : Nat) (cs : List Char) : List Char :=
  match cs with
  | '0' :: c :: r => if some c.toLower = baseMark? base then r else cs
  | _ => cs

end Numeral

/-- The integer that a text without underscores denotes in base two, eight or sixteen; the base may
be marked behind the sign. There is no limit to the number of digits. -/
def readIntegerIn (base : Nat) (cs : List Char) : Option Int := do
  let (negative, cs) := Numeral.sign ((← Numeral.asciiForm cs).dropWhile isAsciiBlank)
  let cs := Numeral.withoutMark base cs
  let ds := cs.takeWhile (Numeral.isDigitIn base)
  if ds = [] || !((cs.drop ds.length).all isAsciiBlank) then none
  else
    let n := Numeral.valueIn base ds
    return if negative then -n else n

end Coinage
