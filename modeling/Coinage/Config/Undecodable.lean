import Coinage.Config.Calendar
import Coinage.Text.Numeral

/-!
# Undecodable texts

Why a text in one of the configuration formats cannot be decoded. A text may break the rules of its
format, or keep them and write down a value that does not exist.
-/

namespace Coinage

inductive ValueFault where
  /-- The text is no integer in the base. -/
  | integer (base : Nat) (text : List Char)
  /-- The numeral has too many digits. -/
  | overlong (count : Nat)
  /-- The text is no number. -/
  | real (text : List Char)
  /-- A factor is too large for a number with a point. -/
  | factor
  /-- There is nothing where a number has to be. -/
  | noNumber
  /-- The text is no word for yes or no. -/
  | truth (text : List Char)
  /-- The text is no date. -/
  | date
  /-- A date is no text. -/
  | dateOfMapping
  | calendar (f : CalendarFault)
  /-- No character has the code point. -/
  | codePoint
  /-- The code point does not even fit into 31 binary digits. -/
  | vastCodePoint
deriving DecidableEq, Repr

def ValueFault.message : ValueFault → List Char
  | integer base text => badNumeral base text
  | overlong count => overlongNumeral count
  | real text => "could not convert string to float: ".toList ++ quoted text
  | factor => "int too large to convert to float".toList
  | noNumber => "string index out of range".toList
  | truth text => quoted text
  | date => "'NoneType' object has no attribute 'groupdict'".toList
  | dateOfMapping => "expected string or bytes-like object, got 'list'".toList
  | calendar f => f.message
  | codePoint => "chr() arg not in range(0x110000)".toList
  | vastCodePoint => "Python int too large to convert to C int".toList

def ValueFault.kind : ValueFault → String
  | factor => "OverflowError"
  | vastCodePoint => "OverflowError"
  | noNumber => "IndexError"
  | truth _ => "KeyError"
  | date => "AttributeError"
  | dateOfMapping => "TypeError"
  | _ => "ValueError"

inductive Undecodable where
  /-- The text breaks the rules of its format. -/
  | malformed
  /-- The bytes are no text. -/
  | notUtf8
  /-- The text keeps the rules, but writes down a value that does not exist. -/
  | badValue (fault : ValueFault)
  /-- Values are nested deeper than there is room. -/
  | tooDeep
deriving DecidableEq, Repr

/-- The fault of a value that a numeral in the given base does not have. -/
def NumeralError.undecodable (base : Nat) (text : List Char) : NumeralError → Undecodable
  | malformed => .badValue (.integer base text)
  | overlong count => .badValue (.overlong count)

end Coinage
