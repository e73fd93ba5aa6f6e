import Coinage.Config.Yaml.Place
import Coinage.Text.StandIn

/-!
# Scalars of YAML texts

The text of a scalar in its four written forms: plain, between quotes, and as a block that keeps
its lines or folds them. A single line break in a folded text reads as a space, and each further one
as itself.
-/

namespace Coinage

namespace Yaml

/-- A line break behind a folded line, together with the empty lines that follow it. -/
def folded (lineBreak : Char) (more : List Char) : List Char :=
  if lineBreak != '\n' then lineBreak :: more else if more = [] then [' '] else more

def isGap (c : Char) : Bool := c == ' ' || c == '\t'

/-! ### Quoted scalars -/

/-- The line breaks from here on, with white space between them. No document may begin or end
there. -/
def quotedBreaks : (fuel : Nat) → Place → Except Undecodable (List Char × Place)
  | 0, _ => .error .malformed
  | fuel + 1, p => do
    if ← p.atDocumentMark then throw .malformed
    let q ← p.skipWhile isGap
    match ← q.lineBreak? with
    | none => return ([], q)
    | some (c, q) =>
      let (cs, q) ← quotedBreaks fuel q
      return (c :: cs, q)

def quotedGap (p : Place) : Except Undecodable (List Char × Place) := do
  let (gap, q) ← p.span isGap
  match ← q.lineBreak? with
  | some (c, q) =>
    let (more, q) ← quotedBreaks (q.rest.length + 1) q
    return (folded c more, q)
  | none => if (← q.head) == endMark then throw .malformed else return (gap, q)

def escapedChar? (c : Char) : Option Char :=
  match c with
  | '0' => some '\x00'
  | 'a' => some '\x07'
  | 'b' => some '\x08'
  | 't' => some '\t'
  | '\t' => some '\t'
  | 'n' => some '\n'
  | 'v' => some '\x0b'
  | 'f' => some '\x0c'
  | 'r' => some '\r'
  | 'e' => some '\x1b'
  | ' ' => some ' '
  | '"' => some '"'
  | '\\' => some '\\'
  | '/' => some '/'
  | 'N' => some '\x85'
  | '_' => some '\xa0'
  | 'L' => some '\u2028'
  | 'P' => some '\u2029'
  | _ => none

def escapeWidth? (c : Char) : Option Nat :=
  match c with
  | 'x' => some 2
  | 'u' => some 4
  | 'U' => some 8
  | _ => none

/-- The character with the given code point, or what stands in for it. -/
def charOf (n : Nat) : Except Undecodable Char :=
  if n.isValidChar then .ok (Char.ofNat n)
  else if n < 0x110000 then .ok (StandIn.ofHalf n)
  else if n < 0x80000000 then .error (.badValue .codePoint)
  else .error (.badValue .vastCodePoint)

def charByDigits (width : Nat) (p : Place) : Except Undecodable (Char × Place) := do
  let ds := (p.rest.take width).takeWhile isHex
  if ds.length < width then
    let _ ← p.look ds.length
    throw .malformed
  return (← charOf (hexNumber ds), ← p.skip width)

/-- What an escape stands for, read from its backslash on. A line break after the backslash stands
for nothing. -/
def quotedEscape (p : Place) : Except Undecodable (List Char × Place) := do
  let q ← p.skip 1
  let c ← q.head
  match escapedChar? c, escapeWidth? c with
  | some e, _ => return ([e], ← q.skip 1)
  | none, some width =>
    let (c, q) ← charByDigits width (← q.skip 1)
    return ([c], q)
  | none, none =>
    match ← q.lineBreak? with
    | some (_, q) => quotedBreaks (q.rest.length + 1) q
    | none => throw .malformed

/-- The rest of a quoted text behind its opening quote, in at most `fuel` steps. -/
def quotedFrom (double : Bool) : (fuel : Nat) → (taken : List Char) → Place →
    Except Undecodable (List Char × Place)
  | 0, _, _ => .error .malformed
  | fuel + 1, taken, p => do
    let c ← p.head
    if endsWord c then
      let (gap, q) ← quotedGap p
      quotedFrom double fuel (gap.reverse ++ taken) q
    else if double && c == '"' then return (taken.reverse, ← p.skip 1)
    else if !double && c == '\'' then
      if (← p.look 1) == '\'' then quotedFrom double fuel ('\'' :: taken) (← p.skip 2)
      else return (taken.reverse, ← p.skip 1)
    else if double && c == '\\' then
      let (e, q) ← quotedEscape p
      quotedFrom double fuel (e.reverse ++ taken) q
    else quotedFrom double fuel (c :: taken) (← p.skip 1)

def quotedScalar (p : Place) : Except Undecodable (List Char × Place) := do
  quotedFrom ((← p.head) == '"') (p.rest.length + 1) [] (← p.skip 1)

/-! ### Plain scalars -/

def isFlowEnd (c : Char) : Bool := ",?[]\x7b\x7d".toList.contains c

def endsKey (inFlow : Bool) (c : Char) : Bool :=
  endsWord c || (inFlow && ",[]\x7b\x7d".toList.contains c)

/-- The word of a plain text that comes next. If the text is `barred`, nothing is said about what
follows, and a colon at the very end counts as a part of the word. -/
def plainWord (inFlow barred : Bool) : List Char → List Char
  | [] => []
  | c :: r =>
    if endsWord c || (c == ':' && colonEnds r) || (inFlow && isFlowEnd c) then []
    else c :: plainWord inFlow barred r
where
  /-- A colon in front of the rest ends the word. -/
  colonEnds : List Char → Bool
    | [] => !barred
    | d :: _ => endsKey inFlow d

/-- The line breaks from here on, with spaces between them; none if a document begins or ends in
front of one of the lines. -/
def plainBreaks : (fuel : Nat) → Place → Except Undecodable (Option (List Char) × Place)
  | 0, _ => .error .malformed
  | fuel + 1, p => do
    if (← p.head) == ' ' then plainBreaks fuel (← p.skip 1)
    else
      match ← p.lineBreak? with
      | none => return (some [], p)
      | some (c, q) =>
        if ← q.atDocumentMark then return (none, q)
        else
          let (more, q) ← plainBreaks fuel q
          return (more.map (c :: ·), q)

/-- The white space between two words of a plain text, whether it has a line break, and the place
behind it. It is empty where the text cannot go on. -/
def plainGap (p : Place) : Except Undecodable (List Char × Bool × Place) := do
  let (gap, q) ← p.span (· == ' ')
  match ← q.lineBreak? with
  | none => return (gap, false, q)
  | some (c, q) =>
    if ← q.atDocumentMark then return ([], true, q)
    else
      let (more, q) ← plainBreaks (q.rest.length + 1) q
      return (more.elim [] (folded c), true, q)

/-- A plain text from here on, in lines of the given indentation: the text, whether white space with
a line break follows it, and the place behind it. -/
def plainFrom (inFlow : Bool) (indent : Int) : (fuel : Nat) → (taken gap : List Char) →
    (broken : Bool) → Place → Except Undecodable (List Char × Bool × Place)
  | 0, _, _, _, _ => .error .malformed
  | fuel + 1, taken, gap, broken, p => do
    if (← p.head) == '#' then return (taken.reverse, broken, p)
    let word := plainWord inFlow p.fault.isSome p.rest
    let q ← p.skip word.length
    if word = [] then return (taken.reverse, broken, p)
    let taken := word.reverse ++ (gap.reverse ++ taken)
    let (gap, broken, q) ← plainGap q
    if gap = [] || (!inFlow && q.column < indent) then return (taken.reverse, broken, q)
    plainFrom inFlow indent fuel taken gap broken q

def plainScalar (inFlow : Bool) (indent : Int) (p : Place) :
    Except Undecodable (List Char × Bool × Place) :=
  plainFrom inFlow indent (p.rest.length + 1) [] [] false p

/-! ### Block scalars -/

inductive Chomping where
  | strip
  | clip
  | keep
deriving DecidableEq, Repr

def chomping? (c : Char) : Option Chomping :=
  if c == '+' then some .keep else if c == '-' then some .strip else none

def increment? (p : Place) : Except Undecodable (Option Nat × Place) := do
  let c ← p.head
  if c == '0' then throw .malformed
  else if c.isDigit then return (some (c.toNat - 48), ← p.skip 1)
  else return (none, p)

/-- The signs at the head of a block: what happens at the end, and the indentation, in either
order. -/
def blockSigns (p : Place) : Except Undecodable (Chomping × Option Nat × Place) := do
  match chomping? (← p.head) with
  | some c =>
    let (n, q) ← increment? (← p.skip 1)
    return (c, n, q)
  | none =>
    let (n, q) ← increment? p
    match n, chomping? (← q.head) with
    | some _, some c => return (c, n, ← q.skip 1)
    | _, _ => return (.clip, n, q)

def blockHead (p : Place) : Except Undecodable (Chomping × Option Nat × Place) := do
  let (chomping, increment, q) ← blockSigns p
  if !endsPart (← q.head) then throw .malformed
  let q ← (← q.skipWhile (· == ' ')).skipComment
  if !endsLine (← q.head) then throw .malformed
  return (chomping, increment, ((← q.lineBreak?).map Prod.snd).getD q)

/-- The empty lines in front of a block: their breaks, the greatest column of spaces, and the place
behind them. -/
def emptyLines : (fuel : Nat) → (widest : Nat) → Place →
    Except Undecodable (List Char × Nat × Place)
  | 0, _, _ => .error .malformed
  | fuel + 1, widest, p => do
    if (← p.head) == ' ' then
      let q ← p.skip 1
      emptyLines fuel (max widest q.column) q
    else
      match ← p.lineBreak? with
      | none => return ([], widest, p)
      | some (c, q) =>
        let (cs, widest, q) ← emptyLines fuel widest q
        return (c :: cs, widest, q)

def blockBreaks (indent : Nat) : (fuel : Nat) → Place → Except Undecodable (List Char × Place)
  | 0, _ => .error .malformed
  | fuel + 1, p => do
    let p ← p.indentTo indent
    match ← p.lineBreak? with
    | none => return ([], p)
    | some (c, q) =>
      let (cs, q) ← blockBreaks indent fuel q
      return (c :: cs, q)

/-- What the lines of a block consist of: the text, last character first, the last line break, and
the empty lines behind it. -/
structure BlockLines where
  taken : List Char
  last : List Char
  breaks : List Char

/-- The lines of a block of the given indentation, behind those that have been read. -/
def blockLines (fold : Bool) (indent : Nat) : (fuel : Nat) → BlockLines → Place →
    Except Undecodable (BlockLines × Place)
  | 0, _, _ => .error .malformed
  | fuel + 1, b, p => do
    if p.column ≠ indent || (← p.head) == endMark then return (b, p)
    let indented := isGap (← p.head)
    let (line, q) ← p.span fun c => !endsLine c
    let taken := line.reverse ++ (b.breaks.reverse ++ b.taken)
    let (last, q) := match ← q.lineBreak? with
      | none => ([], q)
      | some (c, q) => ([c], q)
    let (breaks, q) ← blockBreaks indent (q.rest.length + 1) q
    if q.column ≠ indent || (← q.head) == endMark then return (⟨taken, last, breaks⟩, q)
    let joins := fold && last = ['\n'] && !indented && !isGap (← q.head)
    let between := if joins then (if breaks = [] then [' '] else []) else last
    blockLines fold indent fuel ⟨between.reverse ++ taken, last, breaks⟩ q

/-- The indentation of a block and the empty lines at its beginning. Unless it is given, the
indentation is that of the first line with a text, and the `least` one at any rate. -/
def blockStart (least : Nat) (increment : Option Nat) (p : Place) :
    Except Undecodable (List Char × Nat × Place) := do
  match increment with
  | none =>
    let (breaks, widest, q) ← emptyLines (p.rest.length + 1) 0 p
    return (breaks, max least widest, q)
  | some n =>
    let indent := least + n - 1
    let (breaks, q) ← blockBreaks indent (p.rest.length + 1) p
    return (breaks, indent, q)

def blockScalar (outer : Int) (p : Place) : Except Undecodable (List Char × Place) := do
  let (chomping, increment, q) ← blockHead (← p.skip 1)
  let (breaks, indent, q) ← blockStart (max (outer + 1) 1).toNat increment q
  let (b, q) ←
    blockLines ((← p.head) == '>') indent (q.rest.length + 1) ⟨[], [], breaks⟩ q
  let ending := match chomping with
    | .strip => []
    | .clip => b.last
    | .keep => b.last ++ b.breaks
  return (b.taken.reverse ++ ending, q)

end Yaml

end Coinage
