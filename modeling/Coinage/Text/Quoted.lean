import Coinage.Text.Printable

/-!
# Quoted texts

A text is shown between apostrophes, or between double quotes when it holds an apostrophe and no
double quote. The backslash, the quote in use, the line feed, the carriage return and the tab are
escaped by a backslash and a letter; every other unprintable character by its code point in two,
four or eight hexadecimal digits. All other characters stand for themselves.
-/

namespace Coinage

namespace Quoted

def mark (cs : List Char) : Char :=
  if cs.contains '\'' && !cs.contains '"' then '"' else '\''

def hexDigit (d : Nat) : Char :=
  if d % 16 < 10 then Char.ofNat (48 + d % 16) else Char.ofNat (87 + d % 16)

def hex : (width : Nat) → (n : Nat) → List Char
  | 0, _ => []
  | width + 1, n => hex width (n / 16) ++ [hexDigit n]

def byCodePoint (c : Char) : List Char :=
  if c.toNat < 0x100 then '\\' :: 'x' :: hex 2 c.toNat
  else if c.toNat < 0x10000 then '\\' :: 'u' :: hex 4 c.toNat
  else '\\' :: 'U' :: hex 8 c.toNat

def escape (q c : Char) : List Char :=
  if c == q || c == '\\' then ['\\', c]
  else if c == '\n' then ['\\', 'n']
  else if c == '\r' then ['\\', 'r']
  else if c == '\t' then ['\\', 't']
  else if isPrintable c then [c]
  else byCodePoint c

end Quoted

def quoted (cs : List Char) : List Char :=
  Quoted.mark cs :: (cs.flatMap (Quoted.escape (Quoted.mark cs)) ++ [Quoted.mark cs])

/-- Bytes with quotes around them, as characters of which only the first 128 can be printable. -/
def quotedBytes (bs : List UInt8) : List Char :=
  let cs := bs.map fun b => Char.ofNat b.toNat
  let q := Quoted.mark cs
  let escaped := cs.flatMap fun c =>
    if c.toNat < 128 then Quoted.escape q c else Quoted.byCodePoint c
  q :: (escaped ++ [q])

end Coinage
