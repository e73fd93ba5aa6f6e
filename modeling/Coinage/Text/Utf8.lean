/-!
# UTF-8, byte by byte

A decoder that can stop between any two bytes and go on later: what it keeps is the part of a
character that the bytes so far have begun. Every byte is checked as soon as it comes, so that a
fault shows before the character is complete.
-/

namespace Coinage

namespace Utf8

/-- A character that has begun: the number that its bytes denote so far, how many bytes are still to
come, and the least and the greatest next one. -/
structure Begun where
  value : Nat
  more : Nat
  least : Nat
  greatest : Nat
deriving DecidableEq, Repr

abbrev Pending := Option Begun

/-- The least and the greatest byte that goes on with a character in general. -/
def tail (value more : Nat) : Begun := ⟨value, more, 0x80, 0xbf⟩

/-- What a first byte begins, if it is not a character by itself. Numbers that have a shorter form,
surrogates and numbers beyond the last code point are excluded by the second byte. -/
def begin? (b : Nat) : Option Begun :=
  if b < 0xc2 then none
  else if b < 0xe0 then some (tail (b - 0xc0) 1)
  else if b < 0xf0 then
    let t := tail (b - 0xe0) 2
    some (if b = 0xe0 then { t with least := 0xa0 }
      else if b = 0xed then { t with greatest := 0x9f } else t)
  else if b < 0xf5 then
    let t := tail (b - 0xf0) 3
    some (if b = 0xf0 then { t with least := 0x90 }
      else if b = 0xf4 then { t with greatest := 0x8f } else t)
  else none

/-- The decoder after one more byte, and the character that the byte completes. -/
def feed (p : Pending) (b : UInt8) : Option (Option Char × Pending) :=
  match p with
  | none =>
    if b < 0x80 then some (some (Char.ofNat b.toNat), none)
    else (begin? b.toNat).map fun t => (none, some t)
  | some t =>
    if t.least ≤ b.toNat && b.toNat ≤ t.greatest then
      let value := 64 * t.value + (b.toNat - 0x80)
      if t.more ≤ 1 then some (some (Char.ofNat value), none)
      else some (none, some (tail value (t.more - 1)))
    else none

/-- The characters that bytes complete, and the decoder after them; nothing if there is a fault. -/
def decode (p : Pending) : List UInt8 → Option (List Char × Pending)
  | [] => some ([], p)
  | b :: bs => do
    let (c, q) ← feed p b
    let (cs, q) ← decode q bs
    return (c.toList ++ cs, q)

end Utf8

end Coinage
