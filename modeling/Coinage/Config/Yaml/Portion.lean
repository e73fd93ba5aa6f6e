import Coinage.Config.Undecodable
import Coinage.Text.Utf8

/-!
# Texts in portions

A text is read from its file in portions, each of them when a character of it is needed. Bytes that
are no text, and characters that no text may contain, are found as soon as their portion is read,
and no sooner: what is wrong in front of that portion is found first. Of a text with such a fault
this module gives the part that can be read, and the fault behind it.
-/

namespace Coinage

namespace Yaml

/-- A file that is being read: bytes are taken from it and decoded in blocks, and characters are
handed out. -/
structure Source where
  bytes : List UInt8
  pending : Utf8.Pending
  /-- A carriage return at the end of the last block; a line feed may follow it. -/
  carriage : Bool
  /-- The characters that are decoded and not yet handed out. -/
  ready : List Char
  /-- How many bytes and characters the last block had. -/
  density : Nat × Nat

namespace Source

def start (bytes : List UInt8) : Source := ⟨bytes, none, false, [], (0, 0)⟩

def blockSize : Nat := 8192

/-- The text with a line feed for each carriage return, alone or in front of a line feed. -/
def unifyBreaks : List Char → List Char
  | '\r' :: '\n' :: r => '\n' :: unifyBreaks r
  | '\r' :: r => '\n' :: unifyBreaks r
  | c :: r => c :: unifyBreaks r
  | [] => []

/-- The characters of a block with their line breaks unified. A carriage return at its end is put
off unless the block is the `last` one. -/
def breaks (last carriage : Bool) (cs : List Char) : List Char × Bool :=
  let cs := if carriage && (last || cs ≠ []) then '\r' :: cs else cs
  let wait := carriage && !last && cs = []
  if !last && cs.getLast? = some '\r' then (unifyBreaks cs.dropLast, true)
  else (unifyBreaks cs, wait)

/-- How many bytes the next block takes if `wanted` characters are missing: as many as these would
have if they were like those of the last block. -/
def nextSize (s : Source) (wanted : Nat) : Nat :=
  max blockSize (max wanted (s.density.1 * wanted / s.density.2))

def readBlock (wanted : Nat) (s : Source) : Except Undecodable Source :=
  let block := s.bytes.take (s.nextSize wanted)
  let last := block = []
  match Utf8.decode s.pending block with
  | none => .error .notUtf8
  | some (cs, pending) =>
    if last && pending.isSome then .error .notUtf8
    else
      let (cs, carriage) := breaks last s.carriage cs
      .ok ⟨s.bytes.drop block.length, pending, carriage, s.ready ++ cs, (block.length, cs.length)⟩

/-- Reads up to `n` characters, in at most `fuel` blocks; less only at the end of the file. -/
def read (n : Nat) : (fuel : Nat) → Source → Except Undecodable (List Char × Source)
  | 0, s => .ok (s.ready, { s with ready := [] })
  | fuel + 1, s =>
    if n ≤ s.ready.length then .ok (s.ready.take n, { s with ready := s.ready.drop n })
    else do
      let t ← s.readBlock (n - s.ready.length)
      if s.bytes = [] then return (t.ready.take n, { t with ready := t.ready.drop n })
      else read n fuel t

end Source

def isAllowed (c : Char) : Bool :=
  let n := c.toNat
  n = 9 || n = 10 || n = 13 || (32 ≤ n && n ≤ 126) || n = 0x85 || (0xa0 ≤ n && n ≤ 0xd7ff)
    || (0xe000 ≤ n && n ≤ 0xfffd) || 0x10000 ≤ n

def portionSize : Nat := 4096

def portion (fuel : Nat) (s : Source) : Except Undecodable (List Char × Source) := do
  let (cs, s) ← s.read portionSize fuel
  if cs.all isAllowed then return (cs, s) else throw .malformed

/-- The first portion, which is twice as large as the others. -/
def firstPortion (fuel : Nat) (s : Source) : Except Undecodable (List Char × Source) := do
  let (cs, s) ← s.read portionSize fuel
  let (ds, s) ← s.read portionSize fuel
  if (cs ++ ds).all isAllowed then return (cs ++ ds, s) else throw .malformed

/-- The characters of the portions up to the first one with a fault, and this fault. -/
def portions (next : Source → Except Undecodable (List Char × Source)) (fuel : Nat) :
    (count : Nat) → Source → List Char × Option Undecodable
  | 0, _ => ([], none)
  | count + 1, s =>
    match next s with
    | .error e => ([], some e)
    | .ok ([], _) => ([], none)
    | .ok (cs, s) =>
      let (ds, fault) := portions (portion fuel) fuel count s
      (cs ++ ds, fault)

def readable (bytes : List UInt8) : List Char × Option Undecodable :=
  let fuel := bytes.length + 2
  portions (firstPortion fuel) fuel fuel (Source.start bytes)

end Yaml

end Coinage
