import Coinage.Text.Digit

/-!
# What plain YAML texts mean

A plain text without a tag gets one by its form: the words for yes and no and for nothing, numbers
of several kinds, dates, and two marks. Anything else is a text.
-/

namespace Coinage

namespace Yaml

/-- The names of the tags of the core types are short for this and a word. -/
def coreTag (word : String) : List Char := "tag:yaml.org,2002:".toList ++ word.toList

def isWord (words : List String) (cs : List Char) : Bool := words.any fun w => w.toList = cs

def isTruthWord (cs : List Char) : Bool :=
  isWord ["yes", "Yes", "YES", "no", "No", "NO", "true", "True", "TRUE", "false", "False", "FALSE",
    "on", "On", "ON", "off", "Off", "OFF"] cs

def isNullWord (cs : List Char) : Bool := isWord ["~", "null", "Null", "NULL", ""] cs

def unsigned (cs : List Char) : List Char :=
  match cs with
  | '-' :: r => r
  | '+' :: r => r
  | r => r

def isDigitOrBar (c : Char) : Bool := c.isDigit || c == '_'

def isDigits (cs : List Char) : Bool :=
  match cs with
  | c :: r => c.isDigit && r.all isDigitOrBar
  | [] => false

def isPower (cs : List Char) : Bool :=
  match cs with
  | [] => true
  | e :: s :: r => (e == 'e' || e == 'E') && (s == '-' || s == '+') && r ≠ [] && r.all Char.isDigit
  | _ => false

def isSixtieth (cs : List Char) : Bool :=
  match cs with
  | [d] => d.isDigit
  | [t, d] => '0' ≤ t && t ≤ '5' && d.isDigit
  | _ => false

def colonParts (cs : List Char) : List (List Char) :=
  cs.foldr (fun c ps => if c == ':' then [] :: ps else
    match ps with
    | [] => [[c]]
    | p :: ps => (c :: p) :: ps) [[]]

def isSixtiethsForm (cs : List Char) : Bool :=
  match colonParts (cs.takeWhile (· != '.')), cs.dropWhile (· != '.') with
  | p :: q :: ps, '.' :: r => isDigits p && (q :: ps).all isSixtieth && r.all isDigitOrBar
  | _, _ => false

def isFloatForm (cs : List Char) : Bool :=
  let whole := (unsigned cs).takeWhile isDigitOrBar
  let behind := (unsigned cs).drop whole.length
  let afterPoint := behind.drop 1
  (isDigits whole && behind.head? = some '.' && isPower (afterPoint.dropWhile isDigitOrBar))
    || (cs.head? = some '.' && isDigits ((cs.drop 1).takeWhile isDigitOrBar)
        && isPower ((cs.drop 1).dropWhile isDigitOrBar))
    || isSixtiethsForm (unsigned cs)
    || isWord [".inf", ".Inf", ".INF"] (unsigned cs)
    || isWord [".nan", ".NaN", ".NAN"] cs

def isIntForm (cs : List Char) : Bool :=
  match unsigned cs with
  | ['0'] => true
  | '0' :: 'b' :: r => r ≠ [] && r.all fun c => c == '0' || c == '1' || c == '_'
  | '0' :: 'x' :: r =>
    r ≠ [] && r.all fun c =>
      c.isDigit || ('a' ≤ c && c ≤ 'f') || ('A' ≤ c && c ≤ 'F') || c == '_'
  | '0' :: r => r.all fun c => ('0' ≤ c && c ≤ '7') || c == '_'
  | r =>
    match colonParts r with
    | p :: ps => isDigits p && ps.all isSixtieth
    | [] => false

def digitsBetween? (least most : Nat) (cs : List Char) : Option (List Char × List Char) :=
  let ds := (cs.takeWhile Char.isDigit).take most
  if least ≤ ds.length then some (ds, cs.drop ds.length) else none

def behind? (x : Char) (cs : List Char) : Option (List Char) :=
  match cs with
  | c :: r => if c = x then some r else none
  | [] => none

def isTimeGap (c : Char) : Bool := c == ' ' || c == '\t'

structure DayTime where
  hour : Nat
  minute : Nat
  second : Nat
  /-- The digits behind the point. -/
  fraction : List Char
  /-- The distance from universal time in minutes, if it is given. -/
  zone : Option Int

structure Timestamp where
  year : Nat
  month : Nat
  day : Nat
  time : Option DayTime

/-- The distance from universal time at the end of a text, which may be left out. -/
def zone? (cs : List Char) : Option (Option Int) :=
  match cs.dropWhile isTimeGap with
  | [] => if cs = [] then some none else none
  | ['Z'] => some (some 0)
  | s :: r =>
    if s == '-' || s == '+' then do
      let (h, r) ← digitsBetween? 1 2 r
      let m ← match r with
        | [] => some 0
        | c :: r => do
          let (m, r) ← digitsBetween? 2 2 r
          if c = ':' && r = [] then some (digitsValue m) else none
      let minutes : Int := 60 * digitsValue h + m
      return some (if s == '-' then -minutes else minutes)
    else none

def dayTime? (cs : List Char) : Option DayTime := do
  let r ← match cs with
    | c :: r =>
      if c == 'T' || c == 't' then some r
      else if isTimeGap c then some (r.dropWhile isTimeGap)
      else none
    | [] => none
  let (h, r) ← digitsBetween? 1 2 r
  let (m, r) ← digitsBetween? 2 2 (← behind? ':' r)
  let (s, r) ← digitsBetween? 2 2 (← behind? ':' r)
  let (f, r) := match r with
    | '.' :: r => (r.takeWhile Char.isDigit, r.dropWhile Char.isDigit)
    | r => ([], r)
  return ⟨digitsValue h, digitsValue m, digitsValue s, f, ← zone? r⟩

def withoutBreak (cs : List Char) : List Char :=
  if cs.getLast? = some '\n' then cs.dropLast else cs

def timestamp? (cs : List Char) : Option Timestamp := do
  let (y, r) ← digitsBetween? 4 4 cs
  let (m, r) ← digitsBetween? 1 2 (← behind? '-' r)
  let (d, r) ← digitsBetween? 1 2 (← behind? '-' r)
  let date := Timestamp.mk (digitsValue y) (digitsValue m) (digitsValue d)
  if r = [] then return date none else return date (some (← dayTime? r))

/-- A date by its form. Without a time of day, month and day need two digits. -/
def isTimestampForm (cs : List Char) : Bool :=
  match timestamp? cs with
  | some t => t.time.isSome || cs.length = 10
  | none => false

def formTag (cs : List Char) : List Char :=
  if isTruthWord cs then coreTag "bool"
  else if isFloatForm cs then coreTag "float"
  else if isIntForm cs then coreTag "int"
  else if isWord ["<<"] cs then coreTag "merge"
  else if isNullWord cs then coreTag "null"
  else if isTimestampForm cs then coreTag "timestamp"
  else if isWord ["="] cs then coreTag "value"
  else coreTag "str"

/-- The tag of a plain text. A line feed at the end does not count, unless there is nothing else. -/
def plainTag (cs : List Char) : List Char :=
  if cs = ['\n'] then coreTag "str" else formTag (withoutBreak cs)

end Yaml

end Coinage
