import Coinage.Config.Toml.Value

/-!
# TOML documents

A document is a list of lines, of which each holds an entry, the header of a table, the header of a
new table at the end of a list of tables, or nothing. A table has one header at most, and none if it
was made by the key of an entry under another header.
-/

namespace Coinage

namespace Toml

structure Progress where
  entries : Entries
  /-- The path of the table that entries belong to. -/
  header : Path
  /-- Tables that cannot have another header. -/
  declared : List Path
  /-- Tables made by keys since the last header; the next header declares them. -/
  pending : List Path
  /-- Nothing can be added below these paths. -/
  closed : List Path

namespace Progress

def start : Progress := ⟨[], [], [], [], []⟩

/-- Declares the tables that keys have made under the header that ends here. -/
def settle (p : Progress) : Progress :=
  { p with declared := p.pending ++ p.declared, pending := [] }

/-- The tables that a key of an entry leads through, from the outermost on. -/
def through (header key : Path) : List Path :=
  (List.range (key.length - 1)).map fun i => header ++ key.take (i + 1)

def entry (p : Progress) (key : Path) (v : Data) : Option Progress :=
  let path := p.header ++ key
  let on := through p.header key
  if on.any (p.declared.contains ·) then none
  else if covers p.closed path.dropLast then none
  else
    (addAt true path v p.entries).map fun es =>
      { p with
        entries := es
        pending := on ++ p.pending
        closed := if isContainer v then path :: p.closed else p.closed }

def table (p : Progress) (path : Path) : Option Progress :=
  if p.declared.contains path || covers p.closed path then none
  else
    (changeAt true some path p.entries).map fun es =>
      { p with entries := es, header := path, declared := path :: p.declared }

def addTable (k : List Char) (es : Entries) : Option Entries :=
  match Data.entry? k es with
  | none => some (Data.putEntry (.text k) (.list [.mapping []]) es)
  | some (.list items) => some (Data.putEntry (.text k) (.list (items ++ [.mapping []])) es)
  | some _ => none

/-- Reads the header of a new table of a list; what was said of the tables below its path is void,
since they belong to the table before. -/
def listTable (p : Progress) (path : Path) : Option Progress :=
  if covers p.closed path then none
  else
    match path.getLast? with
    | none => none
    | some k =>
      (changeAt true (addTable k) path.dropLast p.entries).map fun es =>
        { p with
          entries := es
          header := path
          declared := path :: p.declared.filter (!path.isPrefixOf ·)
          closed := p.closed.filter (!path.isPrefixOf ·) }

end Progress

def orMalformed {α : Type} (o : Option α) : Except Undecodable α :=
  match o with
  | some a => .ok a
  | none => .error .malformed

/-- Reads the line that begins with a character other than white space, up to the white space and
the comment at its end. -/
def statement (room : Nat) (p : Progress) (cs : List Char) :
    Except Undecodable (Progress × List Char) :=
  match cs with
  | '[' :: '[' :: r => do
    let (k, r) ← key (skipGap r)
    let p ← orMalformed (p.settle.listTable k)
    match r with
    | ']' :: ']' :: r => return (p, skipGap r)
    | _ => throw .malformed
  | '[' :: r => do
    let (k, r) ← key (skipGap r)
    let p ← orMalformed (p.settle.table k)
    match r with
    | ']' :: r => return (p, skipGap r)
    | _ => throw .malformed
  | '#' :: _ => .ok (p, cs)
  | _ => do
    let (k, r) ← keyAndEquals cs
    let (v, r) ← value room (2 * cs.length + 2) r
    let p ← orMalformed (p.entry k v)
    return (p, skipGap r)

def statements (room : Nat) : (fuel : Nat) → Progress → List Char → Except Undecodable Progress
  | 0, _, _ => .error .malformed
  | fuel + 1, p, cs =>
    match skipGap cs with
    | [] => .ok p
    | '\n' :: r => statements room fuel p r
    | cs => do
      let (p, r) ← statement room p cs
      match ← skipComment r with
      | [] => return p
      | '\n' :: r => statements room fuel p r
      | _ => throw .malformed

/-- A carriage return in front of a line feed is dropped. -/
def dropReturns : List Char → List Char
  | '\r' :: '\n' :: r => '\n' :: dropReturns r
  | c :: r => c :: dropReturns r
  | [] => []

def decode (room : Nat) (cs : List Char) : Except Undecodable Data :=
  let cs := dropReturns cs
  (statements room (cs.length + 1) .start cs).map fun p => .mapping p.entries

end Toml

end Coinage
