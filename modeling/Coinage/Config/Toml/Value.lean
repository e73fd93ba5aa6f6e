import Coinage.Config.Toml.Scalar

/-!
# Values in TOML

Values are texts, truth values, numbers, dates and times, arrays and inline tables. A table is
filled key by key; a key of several parts leads through tables, which are made where they are
missing. What stands in an inline table or an array cannot be added to later on.
-/

namespace Coinage

namespace Toml

abbrev Path := List (List Char)

abbrev Entries := List (Data × Data)

/-- One of the paths leads to the path or to something that it goes through. -/
def covers (paths : List Path) (p : Path) : Bool := paths.any (·.isPrefixOf p)

/-- Changes the table at the end of a path, which is made if it is missing. A list of tables on the
way stands for its last table if that is allowed. -/
def changeAt (throughLists : Bool) (change : Entries → Option Entries) :
    Path → Entries → Option Entries
  | [], es => change es
  | k :: ks, es =>
    match Data.entry? k es with
    | none => (changeAt throughLists change ks []).map fun sub =>
        Data.putEntry (.text k) (.mapping sub) es
    | some (.mapping sub) => (changeAt throughLists change ks sub).map fun sub =>
        Data.putEntry (.text k) (.mapping sub) es
    | some (.list items) =>
      match throughLists, items.getLast? with
      | true, some (.mapping sub) => (changeAt throughLists change ks sub).map fun sub =>
          Data.putEntry (.text k) (.list (items.dropLast ++ [.mapping sub])) es
      | _, _ => none
    | some _ => none

def addNew (k : List Char) (v : Data) (es : Entries) : Option Entries :=
  match Data.entry? k es with
  | none => some (Data.putEntry (.text k) v es)
  | some _ => none

def addAt (throughLists : Bool) (p : Path) (v : Data) (es : Entries) : Option Entries :=
  match p.getLast? with
  | none => none
  | some k => changeAt throughLists (addNew k v) p.dropLast es

def isContainer : Data → Bool
  | .list _ => true
  | .mapping _ => true
  | _ => false

/-- The rest behind a comment, which ends before the line feed; control characters are not allowed
in it. -/
def skipComment (cs : List Char) : Except Undecodable (List Char) :=
  match cs with
  | '#' :: r =>
    let (comment, rest) := r.span (· != '\n')
    if comment.any isControl then .error .malformed else .ok rest
  | cs => .ok cs

def skipLines : (fuel : Nat) → List Char → Except Undecodable (List Char)
  | 0, cs => .ok cs
  | fuel + 1, cs =>
    match cs.dropWhile isGapOrBreak with
    | '#' :: r => do skipLines fuel (← skipComment ('#' :: r))
    | r => .ok r

def skipBetween (cs : List Char) : Except Undecodable (List Char) := skipLines (cs.length + 1) cs

/-- A key and the rest behind the equals sign and the white space that follow it. -/
def keyAndEquals (cs : List Char) : Except Undecodable (Path × List Char) := do
  let (k, r) ← key cs
  match r with
  | '=' :: r => return (k, skipGap r)
  | _ => throw .malformed

def scalar (cs : List Char) : Except Undecodable (Data × List Char) :=
  match cs with
  | '"' :: _ => (text cs).map fun p => (.text p.1, p.2)
  | '\'' :: _ => (text cs).map fun p => (.text p.1, p.2)
  | 't' :: 'r' :: 'u' :: 'e' :: r => .ok (.bool true, r)
  | 'f' :: 'a' :: 'l' :: 's' :: 'e' :: r => .ok (.bool false, r)
  | cs =>
    match moment? cs with
    | some m => m
    | none =>
      match number? cs with
      | some n => n
      | none =>
        match specialFloat? cs with
        | some p => .ok p
        | none => .error .malformed

mutual

/-- A value, with at most `fuel` levels of reading. An array takes up room for two, and an inline
table for three. -/
def value (room : Nat) : (fuel : Nat) → List Char → Except Undecodable (Data × List Char)
  | 0, _ => .error .malformed
  | fuel + 1, cs =>
    match cs with
    | '[' :: r => do
      if room < 2 then throw .tooDeep
      match ← skipBetween r with
      | ']' :: r => return (.list [], r)
      | r => items (room - 2) fuel [] r
    | '\x7b' :: r => do
      if room < 3 then throw .tooDeep
      match skipGap r with
      | '\x7d' :: r => return (.mapping [], r)
      | r => inlineEntries (room - 3) fuel [] [] r
    | cs => scalar cs

/-- The items of an array from the cursor on; `taken` holds those before, last item first. -/
def items (room : Nat) : (fuel : Nat) → (taken : List Data) → List Char →
    Except Undecodable (Data × List Char)
  | 0, _, _ => .error .malformed
  | fuel + 1, taken, cs => do
    let (v, r) ← value room fuel cs
    match ← skipBetween r with
    | ']' :: r => return (.list (v :: taken).reverse, r)
    | ',' :: r =>
      match ← skipBetween r with
      | ']' :: r => return (.list (v :: taken).reverse, r)
      | r => items room fuel (v :: taken) r
    | _ => throw .malformed

/-- The entries of an inline table from the cursor on; nothing can be added below the paths that
are closed. -/
def inlineEntries (room : Nat) : (fuel : Nat) → (closed : List Path) → Entries → List Char →
    Except Undecodable (Data × List Char)
  | 0, _, _, _ => .error .malformed
  | fuel + 1, closed, es, cs => do
    let (k, r) ← keyAndEquals cs
    let (v, r) ← value room fuel r
    if covers closed k then throw .malformed
    let some es := addAt false k v es | throw .malformed
    match skipGap r with
    | '\x7d' :: r => return (.mapping es, r)
    | ',' :: r =>
      inlineEntries room fuel (if isContainer v then k :: closed else closed) es (skipGap r)
    | _ => throw .malformed

end

end Toml

end Coinage
