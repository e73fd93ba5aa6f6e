/-!
# Bytes in base 64

Four characters, of six binary digits each, stand for three bytes; at the end of a text two or three
characters may stand for one or two bytes, filled up by equals signs to four. Characters of no
meaning are skipped, and nothing is read behind the signs that complete a group.
-/

namespace Coinage

namespace Base64

def value? (c : Char) : Option Nat :=
  if 'A' ≤ c && c ≤ 'Z' then some (c.toNat - 65)
  else if 'a' ≤ c && c ≤ 'z' then some (c.toNat - 71)
  else if c.isDigit then some (c.toNat + 4)
  else if c == '+' then some 62
  else if c == '/' then some 63
  else none

/-- The byte that a character completes if it is the one with the given number in its group; `left`
is the value of the character before. -/
def byteAt (number left value : Nat) : List UInt8 :=
  match number with
  | 0 => []
  | 1 => [UInt8.ofNat (left * 4 + value / 16)]
  | 2 => [UInt8.ofNat (left * 16 + value / 4)]
  | _ => [UInt8.ofNat (left * 64 + value)]

/-- Decodes the rest of a text behind some characters of a group and some signs that fill it up. -/
def decodeFrom (number left filled : Nat) : List Char → Option (List UInt8)
  | [] => if number = 0 then some [] else none
  | c :: cs =>
    if c == '=' then
      if 2 ≤ number && 4 ≤ number + filled + 1 then some []
      else decodeFrom number left (if 2 ≤ number then filled + 1 else filled) cs
    else
      match value? c with
      | none => decodeFrom number left filled cs
      | some v => (decodeFrom ((number + 1) % 4) v 0 cs).map (byteAt number left v ++ ·)

/-- The bytes that a text stands for; nothing if its last group is not complete. -/
def decode (cs : List Char) : Option (List UInt8) := decodeFrom 0 0 0 cs

end Base64

end Coinage
