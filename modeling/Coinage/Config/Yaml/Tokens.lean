import Coinage.Config.Yaml.Scalar
import Coinage.Config.Yaml.Token

/-!
# From YAML texts to tokens

Tokens are read one after the other, when they are asked for. Indentation opens and closes blocks. A
mapping key may have no mark of its own: a token that could begin such a key is remembered, one for
every level of brackets, until a colon follows in the same line within 1024 characters; then the
mark of the key, and if need be that of the mapping, is put in front of it afterwards. Until this is
settled the token is held back.
-/

namespace Coinage

namespace Yaml

/-- A token that could begin a key: how many tokens of the text stand before it, and its place. -/
structure KeyStart where
  number : Nat
  place : Place
  /-- A colon has to follow, since the token is at the indentation of the block. -/
  required : Bool

structure Lexer where
  place : Place
  /-- More than the text has characters. -/
  size : Nat
  /-- The tokens that have been read and not yet handed out. -/
  queue : List Token
  /-- How many tokens have been handed out. -/
  taken : Nat
  /-- The end of the text has been reached. -/
  done : Bool
  /-- The indentation of the innermost block; -1 outside of all blocks. -/
  indent : Int
  /-- The indentations of the blocks around it, innermost first. -/
  outer : List Int
  /-- The possible keys at each level of brackets, innermost first. -/
  keys : List (Option KeyStart)
  /-- A key without a mark may begin here. -/
  keyAllowed : Bool

namespace Lexer

def start (p : Place) : Lexer := ⟨p, p.rest.length + 2, [], 0, false, -1, [], [none], true⟩

def inFlow (l : Lexer) : Bool := 1 < l.keys.length

def push (t : Token) (l : Lexer) : Lexer := { l with queue := l.queue ++ [t] }

def pushBefore (number : Nat) (t : Token) (l : Lexer) : Lexer :=
  let i := number - l.taken
  { l with queue := l.queue.take i ++ t :: l.queue.drop i }

def nextNumber (l : Lexer) : Nat := l.taken + l.queue.length

def moveTo (p : Place) (l : Lexer) : Lexer := { l with place := p }

/-- Skips spaces, comments and line breaks in at most `fuel` steps. Behind a line break outside of
brackets a key may begin. -/
def skipSpace : (fuel : Nat) → Lexer → Except Undecodable Lexer
  | 0, _ => .error .malformed
  | fuel + 1, l => do
    let p ← (← l.place.skipWhile (· == ' ')).skipComment
    match ← p.lineBreak? with
    | none => return l.moveTo p
    | some (_, q) => skipSpace fuel { l with place := q, keyAllowed := l.keyAllowed || !l.inFlow }

def forget (k : Option KeyStart) : Except Undecodable (Option KeyStart) :=
  match k with
  | some s => if s.required then .error .malformed else .ok none
  | none => .ok none

/-- Gives up the possible keys that are in another line or too far away. -/
def forgetStale (l : Lexer) : Except Undecodable Lexer := do
  let keys ← l.keys.mapM fun k =>
    match k with
    | some s =>
      if s.place.line ≠ l.place.line || 1024 < l.place.index - s.place.index then forget k
      else .ok k
    | none => .ok none
  return { l with keys := keys }

def forgetKey (l : Lexer) : Except Undecodable Lexer :=
  match l.keys with
  | [] => .ok l
  | k :: ks => do return { l with keys := (← forget k) :: ks }

def rememberKey (l : Lexer) : Except Undecodable Lexer :=
  if l.keyAllowed then do
    let required := !l.inFlow && l.indent = l.place.column
    let l ← l.forgetKey
    return { l with keys := some ⟨l.nextNumber, l.place, required⟩ :: l.keys.drop 1 }
  else .ok l

/-- Closes the blocks that are indented further than the column: the blocks that are left, and as
many marks as there were others. -/
def closeBlocks (column : Int) : (outer : List Int) → (indent : Int) →
    List Int × Int × List Token
  | [], indent => if column < indent then ([], -1, [.blockEnd]) else ([], indent, [])
  | i :: is, indent =>
    if column < indent then
      let (outer, indent, ts) := closeBlocks column is i
      (outer, indent, .blockEnd :: ts)
    else (i :: is, indent, [])

/-- Closes the blocks that are indented further than the column; between brackets there is nothing
to close. -/
def unwind (column : Int) (l : Lexer) : Lexer :=
  if l.inFlow then l
  else
    let (outer, indent, ts) := closeBlocks column l.outer l.indent
    { l with outer := outer, indent := indent, queue := l.queue ++ ts }

/-- Opens a block at the column if it is indented further than the innermost one; its mark goes in
front of the token with the given number. -/
def openBlock (mark : Token) (column number : Nat) (l : Lexer) : Lexer :=
  if l.indent < column then
    { l.pushBefore number mark with outer := l.indent :: l.outer, indent := column }
  else l

/-- The token at the place is a mark of `width` characters that no key can begin with. -/
def mark (t : Token) (width : Nat) (l : Lexer) : Except Undecodable Lexer := do
  return (l.push t).moveTo (← l.place.skip width)

def finish (l : Lexer) : Except Undecodable Lexer := do
  let l ← (l.unwind (-1)).forgetKey
  return { l with keys := l.keys.map fun _ => none, keyAllowed := false, done := true }

def readDirective (l : Lexer) : Except Undecodable Lexer := do
  let l ← (l.unwind (-1)).forgetKey
  let (t, p) ← directive l.place
  return ({ l with keyAllowed := false }.push t).moveTo p

def readDocumentMark (t : Token) (l : Lexer) : Except Undecodable Lexer := do
  let l ← (l.unwind (-1)).forgetKey
  { l with keyAllowed := false }.mark t 3

def readOpening (t : Token) (l : Lexer) : Except Undecodable Lexer := do
  let l ← l.rememberKey
  { l with keys := none :: l.keys, keyAllowed := true }.mark t 1

def readClosing (t : Token) (l : Lexer) : Except Undecodable Lexer := do
  let l ← l.forgetKey
  let keys := if l.inFlow then l.keys.drop 1 else l.keys
  { l with keys := keys, keyAllowed := false }.mark t 1

def readComma (l : Lexer) : Except Undecodable Lexer := do
  let l ← l.forgetKey
  { l with keyAllowed := true }.mark .comma 1

def readItem (l : Lexer) : Except Undecodable Lexer := do
  if !l.inFlow && !l.keyAllowed then throw .malformed
  let l := if l.inFlow then l else l.openBlock .blockSequence l.place.column l.nextNumber
  let l ← l.forgetKey
  { l with keyAllowed := true }.mark .item 1

def readKey (l : Lexer) : Except Undecodable Lexer := do
  if !l.inFlow && !l.keyAllowed then throw .malformed
  let l := if l.inFlow then l else l.openBlock .blockMapping l.place.column l.nextNumber
  let l ← l.forgetKey
  { l with keyAllowed := !l.inFlow }.mark .key 1

/-- The mark of a value. If a possible key is remembered, it is a key now. -/
def readValue (l : Lexer) : Except Undecodable Lexer := do
  match l.keys with
  | some s :: ks =>
    let l := { l with keys := none :: ks }.pushBefore s.number .key
    let l := if l.inFlow then l else l.openBlock .blockMapping s.place.column s.number
    { l with keyAllowed := false }.mark .value 1
  | _ =>
    if !l.inFlow && !l.keyAllowed then throw .malformed
    let l := if l.inFlow then l else l.openBlock .blockMapping l.place.column l.nextNumber
    let l ← l.forgetKey
    { l with keyAllowed := !l.inFlow }.mark .value 1

/-- An anchor, an alias, a tag or a quoted text; a key may begin with it. -/
def readKeyPart (read : Place → Except Undecodable (Token × Place)) (l : Lexer) :
    Except Undecodable Lexer := do
  let l ← l.rememberKey
  let (t, p) ← read l.place
  return ({ l with keyAllowed := false }.push t).moveTo p

def readPlain (l : Lexer) : Except Undecodable Lexer := do
  let l ← l.rememberKey
  let (cs, broken, p) ← plainScalar l.inFlow (l.indent + 1) l.place
  return ({ l with keyAllowed := broken }.push (.scalar cs true)).moveTo p

def readBlock (l : Lexer) : Except Undecodable Lexer := do
  let l ← l.forgetKey
  let (cs, p) ← blockScalar l.indent l.place
  return ({ l with keyAllowed := true }.push (.scalar cs false)).moveTo p

def plainBegins (l : Lexer) : Except Undecodable Bool := do
  let c ← l.place.head
  if endsWord c || "-?:,[]\x7b\x7d#&*!|>'\"%@`".toList.contains c then
    if endsWord (← l.place.look 1) then return false
    else return c == '-' || (!l.inFlow && (c == '?' || c == ':'))
  else return true

/-- The character at the place is the given sign and a mark, since it stands alone or since it
`always` is one. -/
def atMark (sign c : Char) (always : Bool) (l : Lexer) : Except Undecodable Bool := do
  if c != sign then return false
  else if always then return true
  else return endsWord (← l.place.look 1)

/-- The mark of the beginning or the end of a document is at the place. -/
def atDocumentMark (c : Char) (l : Lexer) : Except Undecodable Bool :=
  if l.place.column = 0 && (c == '-' || c == '.') then l.place.atDocumentMark else .ok false

def read (c : Char) (l : Lexer) : Except Undecodable Lexer := do
  if l.place.column = 0 && c == '%' then l.readDirective
  else if ← l.atDocumentMark c then
    l.readDocumentMark (if c == '-' then .documentStart else .documentEnd)
  else if c == '[' then l.readOpening .openSequence
  else if c == '\x7b' then l.readOpening .openMapping
  else if c == ']' then l.readClosing .closeSequence
  else if c == '\x7d' then l.readClosing .closeMapping
  else if c == ',' then l.readComma
  else if ← l.atMark '-' c false then l.readItem
  else if ← l.atMark '?' c l.inFlow then l.readKey
  else if ← l.atMark ':' c l.inFlow then l.readValue
  else if c == '*' then l.readKeyPart fun p => (anchorName p).map fun r => (.alias r.1, r.2)
  else if c == '&' then l.readKeyPart fun p => (anchorName p).map fun r => (.anchor r.1, r.2)
  else if c == '!' then l.readKeyPart tag
  else if (c == '|' || c == '>') && !l.inFlow then l.readBlock
  else if c == '\'' || c == '"' then
    l.readKeyPart fun p => (quotedScalar p).map fun r => (.scalar r.1 false, r.2)
  else if ← l.plainBegins then l.readPlain
  else throw .malformed

def skipOrderMark (l : Lexer) : Except Undecodable Lexer := do
  if l.place.index = 0 && (← l.place.head) == '\ufeff' then return l.moveTo (← l.place.skip 1)
  else return l

def fetch (l : Lexer) : Except Undecodable Lexer := do
  let l ← l.skipOrderMark
  let l ← (← l.skipSpace l.size).forgetStale
  let l := l.unwind l.place.column
  let c ← l.place.head
  if c == endMark then l.finish else l.read c

def isUnsettled (l : Lexer) : Bool :=
  l.keys.any fun k => k.elim false fun s => s.number = l.taken

def settle : (fuel : Nat) → Lexer → Except Undecodable Lexer
  | 0, l => .ok l
  | fuel + 1, l => do
    if l.done then return l
    else if l.queue = [] then settle fuel (← l.fetch)
    else
      let l ← l.forgetStale
      if l.isUnsettled then settle fuel (← l.fetch) else return l

/-- The first token, unless the text ends, with as much of the text read as that takes. -/
def peek (l : Lexer) : Except Undecodable (Option Token × Lexer) := do
  let l ← l.settle l.size
  return (l.queue.head?, l)

def advance (l : Lexer) : Lexer := { l with queue := l.queue.tail, taken := l.taken + 1 }

end Lexer

end Yaml

end Coinage
