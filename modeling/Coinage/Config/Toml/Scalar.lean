import Coinage.Config.Calendar
import Coinage.Config.Data
import Coinage.Config.Toml.Text

/-!
# Numbers, dates and times in TOML

Each reader takes the longest form that it knows from the beginning of a text, or none at all.
-/

namespace Coinage

namespace Toml

/-- Digits of the class, with single underscores between them: the digits and the rest. The first
character has to be a digit. -/
def digitRun (p : Char → Bool) : List Char → List Char × List Char
  | '_' :: c :: cs =>
    if p c then
      let (ds, r) := digitRun p cs
      (c :: ds, r)
    else ([], '_' :: c :: cs)
  | c :: cs =>
    if p c then
      let (ds, r) := digitRun p cs
      (c :: ds, r)
    else ([], c :: cs)
  | [] => ([], [])

def digitsFrom? (p : Char → Bool) (cs : List Char) : Option (List Char × List Char) :=
  match cs with
  | c :: _ => if p c then some (digitRun p cs) else none
  | [] => none

def based? (base : Nat) (p : Char → Bool) (cs : List Char) : Option (Data × List Char) :=
  (digitsFrom? p cs).map fun (ds, r) =>
    (.int (ds.foldl (fun n c => base * n + hexValue c) 0), r)

def fraction (cs : List Char) : List Char × List Char :=
  match cs with
  | '.' :: r => (digitsFrom? Char.isDigit r).getD ([], cs)
  | _ => ([], cs)

def power? (cs : List Char) : Option (Int × List Char) :=
  match cs with
  | e :: r =>
    if e == 'e' || e == 'E' then
      let (negative, r) := match r with
        | '-' :: r => (true, r)
        | '+' :: r => (false, r)
        | r => (false, r)
      (digitsFrom? Char.isDigit r).map fun (ds, r) =>
        (if negative then -(digitsValue ds : Int) else digitsValue ds, r)
    else none
  | [] => none

/-- The digits of a number before the point: a zero alone, or digits of which the first is none. -/
def wholeDigits? (cs : List Char) : Option (List Char × List Char) :=
  match cs with
  | '0' :: r => some (['0'], r)
  | _ => digitsFrom? Char.isDigit cs

def decimalNumber? (negative : Bool) (cs : List Char) :
    Option (Except Undecodable (Data × List Char)) :=
  (wholeDigits? cs).map fun (ds, r) =>
    let (fs, r₁) := fraction r
    match power? r₁ with
    | some (e, r₂) =>
      .ok (.float (.ofDecimal negative (digitsValue (ds ++ fs)) (e - fs.length)), r₂)
    | none =>
      if fs = [] then
        if maxDigits < ds.length then .error (.badValue (.overlong ds.length))
        else .ok (.int (if negative then -(digitsValue ds : Int) else digitsValue ds), r)
      else .ok (.float (.ofDecimal negative (digitsValue (ds ++ fs)) (-fs.length)), r₁)

def markedNumber? (cs : List Char) : Option (Data × List Char) :=
  match cs with
  | '0' :: 'x' :: r => based? 16 isHex r
  | '0' :: 'b' :: r => based? 2 (fun c => c == '0' || c == '1') r
  | '0' :: 'o' :: r => based? 8 (fun c => '0' ≤ c && c ≤ '7') r
  | _ => none

def number? (cs : List Char) : Option (Except Undecodable (Data × List Char)) :=
  match markedNumber? cs with
  | some p => some (.ok p)
  | none =>
    match cs with
    | '-' :: r => decimalNumber? true r
    | '+' :: r => decimalNumber? false r
    | r => decimalNumber? false r

def fixed? (width : Nat) (cs : List Char) : Option (Nat × List Char) :=
  let ds := cs.take width
  if ds.length = width && ds.all Char.isDigit then some (digitsValue ds, cs.drop width) else none

def mark? (x : Char) (cs : List Char) : Option (List Char) :=
  match cs with
  | c :: r => if c = x then some r else none
  | [] => none

/-- A date; the month is between 1 and 12 and the day between 1 and 31. -/
def date? (cs : List Char) : Option ((Nat × Nat × Nat) × List Char) := do
  let (y, r) ← fixed? 4 cs
  let (m, r) ← fixed? 2 (← mark? '-' r)
  let (d, r) ← fixed? 2 (← mark? '-' r)
  if 1 ≤ m && m ≤ 12 && 1 ≤ d && d ≤ 31 then some ((y, m, d), r) else none

def afterFraction (cs : List Char) : List Char :=
  match cs with
  | '.' :: c :: r => if c.isDigit then r.dropWhile Char.isDigit else cs
  | _ => cs

def afterClock? (cs : List Char) : Option (List Char) := do
  let (h, r) ← fixed? 2 cs
  let (m, r) ← fixed? 2 (← mark? ':' r)
  if h ≤ 23 && m ≤ 59 then some r else none

def afterTime? (cs : List Char) : Option (List Char) := do
  let r ← afterClock? cs
  let (s, r) ← fixed? 2 (← mark? ':' r)
  if s ≤ 59 then some (afterFraction r) else none

def afterZone (cs : List Char) : List Char :=
  match cs with
  | c :: r =>
    if c == 'Z' || c == 'z' then r
    else if c == '+' || c == '-' then (afterClock? r).getD cs
    else cs
  | [] => []

/-- The rest behind a time of day that follows a date, which may be left out. -/
def afterDayTime (cs : List Char) : List Char :=
  match cs with
  | c :: r =>
    if c == 'T' || c == 't' || c == ' ' then
      match afterTime? r with
      | some r => afterZone r
      | none => cs
    else cs
  | [] => []

/-- The beginning of a text up to the given rest, as a date or time. -/
def momentUpTo (cs rest : List Char) : Data × List Char :=
  (.moment (cs.take (cs.length - rest.length)), rest)

/-- A date, with a time of day or without, or a time of day alone. -/
def moment? (cs : List Char) : Option (Except Undecodable (Data × List Char)) :=
  match date? cs with
  | some ((y, m, d), r) =>
    match dateFault? y m d with
    | some _ => some (.error .malformed)
    | none => some (.ok (momentUpTo cs (afterDayTime r)))
  | none => (afterTime? cs).map fun r => .ok (momentUpTo cs r)

def specialFloat? (cs : List Char) : Option (Data × List Char) :=
  let read (negative : Bool) (cs : List Char) : Option (Data × List Char) :=
    match cs with
    | 'i' :: 'n' :: 'f' :: r => some (.float (.infinite negative), r)
    | 'n' :: 'a' :: 'n' :: r => some (.float .notANumber, r)
    | _ => none
  match cs with
  | '-' :: r => read true r
  | '+' :: r => read false r
  | r => read false r

end Toml

end Coinage
