/-!
# Decimal numerals

The canonical numeral of an integer: the fewest digits, and a minus sign before a negative one.
Numerals are limited in length.
-/

namespace Coinage

def digitChar (d : Nat) : Char := Char.ofNat (48 + d % 10)

def decimalOnto (n : Nat) (tail : List Char) : List Char :=
  if n < 10 then digitChar n :: tail else decimalOnto (n / 10) (digitChar n :: tail)
termination_by n
decreasing_by omega

def decimal (n : Nat) : List Char := decimalOnto n []

def signedDecimal (i : Int) : List Char :=
  if i < 0 then '-' :: decimal i.natAbs else decimal i.natAbs

/-- Numerals with more digits than this are refused where they are read or written. -/
def maxDigits : Nat := 4300

def overlongNumeral (count : Nat) : List Char :=
  "Exceeds the limit (".toList ++ decimal maxDigits
    ++ " digits) for integer string conversion: value has ".toList ++ decimal count
    ++ " digits; use sys.set_int_max_str_digits() to increase the limit".toList

def vastNumber : List Char :=
  "Exceeds the limit (".toList ++ decimal maxDigits
    ++ " digits) for integer string conversion; use sys.set_int_max_str_digits() ".toList
    ++ "to increase the limit".toList

end Coinage
