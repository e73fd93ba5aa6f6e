import Coinage.Config.Undecodable
import Coinage.Text.Digit

/-!
# Texts and keys in TOML

Texts stand between single or double quotes, in one line or, with three quotes, in several; only
between double quotes is the backslash an escape. Keys are bare words or texts of one line, joined
by dots.
-/

namespace Coinage

namespace Toml

def isGap (c : Char) : Bool := c == ' ' || c == '\t'

def isGapOrBreak (c : Char) : Bool := isGap c || c == '\n'

def isControl (c : Char) : Bool := (c.toNat < 32 && c != '\t') || c.toNat = 127

def isBareKey (c : Char) : Bool :=
  c.toNat < 128 && (c.isAlphanum || c == '-' || c == '_')

def isHex (c : Char) : Bool :=
  c.isDigit || ('a' ≤ c && c ≤ 'f') || ('A' ≤ c && c ≤ 'F')

def hexValue (c : Char) : Nat :=
  if c.isDigit then c.toNat - 48 else if 'a' ≤ c then c.toNat - 87 else c.toNat - 55

def hexNumber (cs : List Char) : Nat := cs.foldl (fun n c => 16 * n + hexValue c) 0

def skipGap (cs : List Char) : List Char := cs.dropWhile isGap

def codePoint (width : Nat) (cs : List Char) : Except Undecodable (Char × List Char) :=
  let ds := cs.take width
  let n := hexNumber ds
  if ds.length = width && ds.all isHex && n.isValidChar then .ok (Char.ofNat n, cs.drop width)
  else .error .malformed

/-- The rest behind a backslash at the end of a line: all white space that follows is skipped, and
a line feed has to be among it unless the text ends. -/
def joinLines (cs : List Char) : Except Undecodable (List Char) :=
  match skipGap cs with
  | [] => .ok []
  | '\n' :: r => .ok (r.dropWhile isGapOrBreak)
  | _ => .error .malformed

def escape (manyLines : Bool) (cs : List Char) : Except Undecodable (List Char × List Char) :=
  match cs with
  | 'b' :: r => .ok (['\x08'], r)
  | 't' :: r => .ok (['\t'], r)
  | 'n' :: r => .ok (['\n'], r)
  | 'f' :: r => .ok (['\x0c'], r)
  | 'r' :: r => .ok (['\r'], r)
  | '"' :: r => .ok (['"'], r)
  | '\\' :: r => .ok (['\\'], r)
  | 'u' :: r => (codePoint 4 r).map fun p => ([p.1], p.2)
  | 'U' :: r => (codePoint 8 r).map fun p => ([p.1], p.2)
  | c :: _ =>
    if manyLines && isGapOrBreak c then (joinLines cs).map fun r => ([], r)
    else .error .malformed
  | [] => .error .malformed

/-- The rest of a text between double quotes, in at most `fuel` steps; `taken` holds what has been
read, last character first. -/
def basicText (manyLines : Bool) : (fuel : Nat) → (taken : List Char) → List Char →
    Except Undecodable (List Char × List Char)
  | 0, _, _ => .error .malformed
  | fuel + 1, taken, cs =>
    match cs with
    | [] => .error .malformed
    | '"' :: r =>
      if !manyLines then .ok (taken.reverse, r)
      else
        match r with
        | '"' :: '"' :: r => .ok (taken.reverse, r)
        | _ => basicText manyLines fuel ('"' :: taken) r
    | '\\' :: r => do
      let (e, r) ← escape manyLines r
      basicText manyLines fuel (e.reverse ++ taken) r
    | c :: r =>
      if isControl c && !(manyLines && c == '\n') then .error .malformed
      else basicText manyLines fuel (c :: taken) r

def literalText (cs : List Char) : Except Undecodable (List Char × List Char) :=
  let (taken, rest) := cs.span (· != '\'')
  match rest with
  | [] => .error .malformed
  | _ :: r => if taken.any isControl then .error .malformed else .ok (taken, r)

/-- The rest of a text between three single quotes each, without the quotes that belong to it at
its end. -/
def literalLines : (taken : List Char) → List Char → Except Undecodable (List Char × List Char)
  | taken, '\'' :: '\'' :: '\'' :: r => .ok (taken.reverse, r)
  | taken, c :: r =>
    if isControl c && c != '\n' then .error .malformed else literalLines (c :: taken) r
  | _, [] => .error .malformed

/-- Up to two more quotes behind the three that end a text belong to it. -/
def lastQuotes (q : Char) (p : List Char × List Char) : List Char × List Char :=
  let n := min 2 (p.2.takeWhile (· == q)).length
  (p.1 ++ List.replicate n q, p.2.drop n)

def dropBreak : List Char → List Char
  | '\n' :: r => r
  | cs => cs

def lineText (cs : List Char) : Except Undecodable (List Char × List Char) :=
  match cs with
  | '"' :: r => basicText false (r.length + 1) [] r
  | '\'' :: r => literalText r
  | _ => .error .malformed

def text (cs : List Char) : Except Undecodable (List Char × List Char) :=
  match cs with
  | '"' :: '"' :: '"' :: r => do
    let r := dropBreak r
    return lastQuotes '"' (← basicText true (r.length + 1) [] r)
  | '\'' :: '\'' :: '\'' :: r => do
    return lastQuotes '\'' (← literalLines [] (dropBreak r))
  | _ => lineText cs

def keyPart (cs : List Char) : Except Undecodable (List Char × List Char) :=
  match cs with
  | [] => .error .malformed
  | c :: _ => if isBareKey c then .ok (cs.span isBareKey) else lineText cs

/-- The parts of a key and the rest behind it, white space included, in at most `fuel` steps. -/
def keyParts : (fuel : Nat) → List Char →
    Except Undecodable (List (List Char) × List Char)
  | 0, _ => .error .malformed
  | fuel + 1, cs => do
    let (k, r) ← keyPart cs
    match skipGap r with
    | '.' :: r => do
      let (ks, r) ← keyParts fuel (skipGap r)
      return (k :: ks, r)
    | r => return ([k], r)

def key (cs : List Char) : Except Undecodable (List (List Char) × List Char) :=
  keyParts (cs.length + 1) cs

end Toml

end Coinage
