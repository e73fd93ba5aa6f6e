import Coinage.Config.Data
import Coinage.Config.Undecodable
import Coinage.Config.Yaml.Resolve
import Coinage.Number.Written
import Coinage.Text.Base64

/-!
# The values of YAML scalars

A scalar is a value of the kind that its tag says. A plain text has a tag that goes with its form;
but a tag can also be written out in front of any text, which then has no such value perhaps.
-/

namespace Coinage

namespace Yaml

def noValue {α : Type} (f : ValueFault) : Except Undecodable α := .error (.badValue f)

/-! ### Numbers -/

def isNegative (cs : List Char) : Bool := cs.head? = some '-'

def withoutBars (cs : List Char) : List Char := cs.filter (· != '_')

def inBase (base : Nat) (cs : List Char) : Except Undecodable Int :=
  match readIntegerIn base cs with
  | some n => .ok n
  | none => noValue (.integer base cs)

def inTen (cs : List Char) : Except Undecodable Int :=
  match readInteger cs with
  | .ok n => .ok n
  | .error e => .error (e.undecodable 10 cs)

def wholeNumber (cs : List Char) : Except Undecodable Int :=
  match cs with
  | [] => noValue .noNumber
  | ['0'] => .ok 0
  | '0' :: 'b' :: r => inBase 2 r
  | '0' :: 'x' :: r => inBase 16 r
  | '0' :: r => inBase 8 ('0' :: r)
  | r => do
    let parts ← (colonParts r).mapM inTen
    return parts.foldl (fun n d => 60 * n + d) 0

def intValue (cs : List Char) : Except Undecodable Int := do
  let cs := withoutBars cs
  if cs = [] then noValue .noNumber
  else
    let n ← wholeNumber (unsigned cs)
    return if isNegative cs then -n else n

def real (cs : List Char) : Except Undecodable Binary64 :=
  match readReal cs with
  | some x => .ok x
  | none => noValue (.real cs)

/-- The sum of numbers, lowest first, each of which counts sixty times as much as the one before
it. -/
def sixtieths : (unit : Nat) → (sum : Binary64) → List Binary64 → Except Undecodable Binary64
  | _, sum, [] => .ok sum
  | unit, sum, x :: xs =>
    match Binary64.ofNat? unit with
    | some u => sixtieths (60 * unit) (sum.add (x.mul u)) xs
    | none => noValue .factor

def pointNumber (cs : List Char) : Except Undecodable Binary64 :=
  if isWord [".inf"] cs then .ok (.infinite false)
  else if isWord [".nan"] cs then .ok .notANumber
  else
    match colonParts cs with
    | [_] => real cs
    | ps => do sixtieths 1 .zero (← ps.mapM real).reverse

def floatValue (cs : List Char) : Except Undecodable Binary64 := do
  let cs := (withoutBars cs).map Char.toLower
  if cs = [] then noValue .noNumber
  else
    let x ← pointNumber (unsigned cs)
    return if isNegative cs then x.neg else x

/-! ### Dates -/

def microseconds (ds : List Char) : Nat :=
  let ds := ds.take 6
  digitsValue (ds ++ List.replicate (6 - ds.length) '0')

def checkDate (t : Timestamp) : Except Undecodable Unit :=
  match dateFault? t.year t.month t.day with
  | some f => noValue (.calendar f)
  | none => .ok ()

def checkTime (d : DayTime) : Except Undecodable Unit :=
  match timeFault? d.hour d.minute d.second with
  | some f => noValue (.calendar f)
  | none => .ok ()

def checkZone (zone : Option Int) : Except Undecodable Unit :=
  match zone with
  | some m => if 1440 ≤ m.natAbs then noValue (.calendar (.zone m)) else .ok ()
  | none => .ok ()

def Timestamp.value (t : Timestamp) : Except Undecodable Data := do
  let date := writtenDate t.year t.month t.day
  match t.time with
  | none =>
    checkDate t
    return .moment date
  | some d =>
    checkZone d.zone
    checkDate t
    checkTime d
    return .moment (date ++ ' ' :: writtenTime d.hour d.minute d.second (microseconds d.fraction)
      ++ d.zone.elim [] writtenZone)

/-! ### All scalars -/

inductive AtomKind where
  | null
  | bool
  | int
  | float
  | bytes
  | moment
  | text
deriving DecidableEq, Repr

namespace AtomKind

def truth (cs : List Char) : Except Undecodable Bool :=
  let word := cs.map Char.toLower
  if isWord ["yes", "true", "on"] word then .ok true
  else if isWord ["no", "false", "off"] word then .ok false
  else noValue (.truth word)

def decodedBytes (cs : List Char) : Except Undecodable (List UInt8) :=
  if cs.all (·.toNat < 128) then
    match Base64.decode cs with
    | some bs => .ok bs
    | none => .error .malformed
  else .error .malformed

def read (k : AtomKind) (cs : List Char) : Except Undecodable Data :=
  match k with
  | null => .ok .null
  | bool => (truth cs).map .bool
  | int => (intValue cs).map .int
  | float => (floatValue cs).map .float
  | bytes => (decodedBytes cs).map .bytes
  | moment =>
    match timestamp? (withoutBreak cs) with
    | some t => t.value
    | none => noValue .date
  | text => .ok (.text cs)

end AtomKind

end Yaml

end Coinage
