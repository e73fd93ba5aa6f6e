import Coinage.Config.Yaml.Place

/-!
# Tokens of YAML texts, and those that are words

The structure of a text is a list of tokens. This module has the tokens and reads directives,
anchors and tags.
-/

namespace Coinage

namespace Yaml

inductive Directive where
  | version (major : Nat)
  | tag (handle uri : List Char)
  | other
deriving DecidableEq, Repr

/-- The smallest parts of a text. Blocks begin and end by indentation, with tokens of their own. -/
inductive Token where
  | directive (d : Directive)
  | documentStart
  | documentEnd
  | blockSequence
  | blockMapping
  | blockEnd
  | openSequence
  | closeSequence
  | openMapping
  | closeMapping
  | item
  | comma
  | key
  | value
  | alias (name : List Char)
  | anchor (name : List Char)
  /-- A tag, with its handle unless it is written out. -/
  | tag (handle : Option (List Char)) (suffix : List Char)
  | scalar (text : List Char) (plain : Bool)
deriving DecidableEq, Repr

def isTagChar (c : Char) : Bool :=
  c.toNat < 128 && (c.isAlphanum || "-;/?:@&=+$,_.!~*'()[]".toList.contains c)

def percentBytes : (fuel : Nat) → Place → Except Undecodable (List UInt8 × Place)
  | 0, _ => .error .malformed
  | fuel + 1, p => do
    if (← p.head) != '%' then return ([], p)
    let q ← p.skip 1
    let c ← q.head
    if !isHex c then throw .malformed
    let d ← q.look 1
    if !isHex d then throw .malformed
    let (bs, q) ← percentBytes fuel (← q.skip 2)
    return (UInt8.ofNat (hexNumber [c, d]) :: bs, q)

def tagChars : (fuel : Nat) → Place → Except Undecodable (List Char × Place)
  | 0, _ => .error .malformed
  | fuel + 1, p => do
    let (cs, q) ← p.span isTagChar
    if (← q.head) != '%' then return (cs, q)
    let (bs, q) ← percentBytes (q.rest.length + 1) q
    let some s := String.fromUTF8? ⟨bs.toArray⟩ | throw .malformed
    let (ds, q) ← tagChars fuel q
    return (cs ++ s.toList ++ ds, q)

def tagText (p : Place) : Except Undecodable (List Char × Place) := do
  let (cs, q) ← tagChars (p.rest.length + 1) p
  if cs = [] then throw .malformed
  return (cs, q)

/-- The handle of a tag: an exclamation mark alone, or a word between two of them. -/
def tagHandle (p : Place) : Except Undecodable (List Char × Place) := do
  if (← p.head) != '!' then throw .malformed
  let q ← p.skip 1
  if (← q.head) == ' ' then return (['!'], q)
  let (word, q) ← q.span isWordChar
  if (← q.head) != '!' then throw .malformed
  return ('!' :: word ++ ['!'], ← q.skip 1)

def anchorName (p : Place) : Except Undecodable (List Char × Place) := do
  let (name, q) ← (← p.skip 1).span isWordChar
  if name = [] then throw .malformed
  let c ← q.head
  if endsWord c || "?:,]\x7d%@`".toList.contains c then return (name, q) else throw .malformed

def hasHandle (p : Place) : Except Undecodable Bool := do
  let q ← (← p.skip 1).skipWhile fun c => !(endsPart c || c == '!')
  return (← q.head) == '!'

/-- A tag. A word in front of a second exclamation mark belongs to the handle. -/
def tag (p : Place) : Except Undecodable (Token × Place) := do
  let c ← p.look 1
  let (t, q) ←
    if c == '<' then do
      let (cs, q) ← tagText (← p.skip 2)
      if (← q.head) != '>' then throw .malformed
      pure (Token.tag none cs, ← q.skip 1)
    else if endsWord c then pure (Token.tag none ['!'], ← p.skip 1)
    else do
      let (handle, q) ← if ← hasHandle p then tagHandle p else pure (['!'], ← p.skip 1)
      let (cs, q) ← tagText q
      pure (Token.tag (some handle) cs, q)
  if endsPart (← q.head) then return (t, q) else throw .malformed

/-- The rest of a line behind a directive: white space, and a comment at most. -/
def restOfLine (p : Place) : Except Undecodable Place := do
  let q ← (← p.skipWhile (· == ' ')).skipComment
  if !endsLine (← q.head) then throw .malformed
  return ((← q.lineBreak?).map Prod.snd).getD q

def versionPart (p : Place) : Except Undecodable (Nat × Place) := do
  if !(← p.head).isDigit then throw .malformed
  let (ds, q) := (p.rest.takeWhile Char.isDigit, p)
  let _ ← q.look ds.length
  if maxDigits < ds.length then throw (.badValue (.overlong ds.length))
  return (digitsValue ds, ← q.skip ds.length)

def versionDirective (p : Place) : Except Undecodable (Directive × Place) := do
  let (major, q) ← versionPart (← p.skipWhile (· == ' '))
  if (← q.head) != '.' then throw .malformed
  let (_, q) ← versionPart (← q.skip 1)
  if !endsPart (← q.head) then throw .malformed
  return (.version major, q)

def tagDirective (p : Place) : Except Undecodable (Directive × Place) := do
  let (handle, q) ← tagHandle (← p.skipWhile (· == ' '))
  if (← q.head) != ' ' then throw .malformed
  let (uri, q) ← tagText (← q.skipWhile (· == ' '))
  if !endsPart (← q.head) then throw .malformed
  return (.tag handle uri, q)

def directive (p : Place) : Except Undecodable (Token × Place) := do
  let (name, q) ← (← p.skip 1).span isWordChar
  if name = [] || !endsPart (← q.head) then throw .malformed
  let (d, q) ←
    if name = "YAML".toList then versionDirective q
    else if name = "TAG".toList then tagDirective q
    else pure (Directive.other, ← q.skipWhile fun c => !endsLine c)
  return (.directive d, ← restOfLine q)

end Yaml

end Coinage
