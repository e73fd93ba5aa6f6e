import Coinage.Config.Undecodable

/-!
# Places in YAML texts

A place knows what is left of the text and where it stands: how many characters, and in which line
and column. A byte order mark takes up no column. Behind the end of the text every character reads
as zero, which no text contains. A text may have a fault that bars the way; then no character behind
what can be read is looked at without meeting it.
-/

namespace Coinage

namespace Yaml

structure Place where
  rest : List Char
  index : Nat
  line : Nat
  column : Nat
  /-- The fault behind the rest; none if the text ends there. -/
  fault : Option Undecodable

def endMark : Char := '\x00'

def isBreak (c : Char) : Bool :=
  c == '\n' || c == '\r' || c == '\x85' || c == '\u2028' || c == '\u2029'

def endsLine (c : Char) : Bool := c == endMark || isBreak c

def endsPart (c : Char) : Bool := c == ' ' || endsLine c

def endsWord (c : Char) : Bool := c == '\t' || endsPart c

/-- A letter or digit of the first 128 code points, a hyphen or an underscore. -/
def isWordChar (c : Char) : Bool := c.toNat < 128 && (c.isAlphanum || c == '-' || c == '_')

def isHex (c : Char) : Bool :=
  c.isDigit || ('a' ≤ c && c ≤ 'f') || ('A' ≤ c && c ≤ 'F')

def hexNumber (cs : List Char) : Nat :=
  cs.foldl (fun n c =>
    16 * n + (if c.isDigit then c.toNat - 48 else if 'a' ≤ c then c.toNat - 87 else c.toNat - 55)) 0

namespace Place

def start (cs : List Char) (fault : Option Undecodable) : Place := ⟨cs, 0, 0, 0, fault⟩

def look (k : Nat) (p : Place) : Except Undecodable Char :=
  match p.rest[k]?, p.fault with
  | some c, _ => .ok c
  | none, none => .ok endMark
  | none, some e => .error e

def head (p : Place) : Except Undecodable Char := p.look 0

/-- The place behind one more character, whatever stands there. -/
def next (p : Place) : Place :=
  match p.rest with
  | [] => p
  | c :: r =>
    if isBreak c && !(c == '\r' && r.head? == some '\n') then
      { p with rest := r, index := p.index + 1, line := p.line + 1, column := 0 }
    else
      { p with
        rest := r
        index := p.index + 1
        column := if c == '\ufeff' then p.column else p.column + 1 }

/-- The place behind `n` more characters, whatever stands there. -/
def advance : Nat → Place → Place
  | 0, p => p
  | n + 1, p => advance n p.next

/-- The place behind `n` more characters, where a character is looked at. -/
def skip (n : Nat) (p : Place) : Except Undecodable Place := do
  let _ ← p.look n
  return p.advance n

def span (f : Char → Bool) (p : Place) : Except Undecodable (List Char × Place) := do
  let cs := p.rest.takeWhile f
  return (cs, ← p.skip cs.length)

def skipWhile (f : Char → Bool) (p : Place) : Except Undecodable Place := do
  return (← p.span f).2

def indentTo (column : Nat) (p : Place) : Except Undecodable Place :=
  p.skip (min (column - p.column) (p.rest.takeWhile (· == ' ')).length)

/-- A line break and the place behind it. Breaks that only end a line all read as a line feed. -/
def lineBreak? (p : Place) : Except Undecodable (Option (Char × Place)) := do
  let c ← p.head
  if c == '\r' then
    let width := if (← p.look 1) == '\n' then 2 else 1
    return some ('\n', ← p.skip width)
  else if c == '\u2028' || c == '\u2029' then return some (c, ← p.skip 1)
  else if isBreak c then return some ('\n', ← p.skip 1)
  else return none

def atDocumentMark (p : Place) : Except Undecodable Bool := do
  let (a, b, c) := (← p.look 0, ← p.look 1, ← p.look 2)
  if a == b && b == c && (c == '-' || c == '.') then return endsWord (← p.look 3)
  else return false

def skipComment (p : Place) : Except Undecodable Place := do
  if (← p.head) == '#' then p.skipWhile (fun c => !endsLine c) else return p

end Place

end Yaml

end Coinage
