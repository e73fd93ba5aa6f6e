import Coinage.Config.Yaml.Resolve
import Coinage.Config.Yaml.Tokens
import Coinage.Table

/-!
# From YAML tokens to nodes

A text holds one document, and a document has one node at its root: a scalar, or a sequence or
mapping of nodes. Every node has a tag, its own or the one that its form gives it. An anchor names a
node, and an alias is this very node once more; so the nodes of a document form a graph, and have
numbers by which they refer to each other.
-/

namespace Coinage

namespace Yaml

inductive Node where
  | scalar (tag text : List Char)
  | sequence (tag : List Char) (items : List Nat)
  | mapping (tag : List Char) (entries : List (Nat × Nat))
deriving Repr

namespace Node

def empty : Node := .scalar (coreTag "null") []

def tag : Node → List Char
  | scalar t _ => t
  | sequence t _ => t
  | mapping t _ => t

def retag (t : List Char) : Node → Node
  | scalar _ text => .scalar t text
  | sequence _ items => .sequence t items
  | mapping _ entries => .mapping t entries

end Node

structure Document where
  nodes : Array Node
  root : Nat

/-- What is left of a document, with its nodes so far, the numbers of those that have names, what
the handles of tags stand for, and the room for collections in collections. -/
structure Unread where
  lexer : Lexer
  nodes : Array Node
  anchors : Table (List Char) Nat
  handles : Table (List Char) (List Char)
  room : Nat

abbrev Reader := StateT Unread (Except Undecodable)

namespace Reader

def refuse {α : Type} : Reader α := throw .malformed

def peek : Reader (Option Token) := do
  let u ← get
  let (t, l) ← u.lexer.peek
  set { u with lexer := l }
  return t

def advance : Reader Unit := modify fun u => { u with lexer := u.lexer.advance }

def isNext (ts : List Token) : Reader Bool := do
  return (← peek).elim false fun t => ts.contains t

def skip (t : Token) : Reader Bool := do
  if ← isNext [t] then
    advance
    return true
  else return false

def expect (t : Token) : Reader Unit := do
  if !(← skip t) then refuse

def anchor? : Reader (Option (List Char)) := do
  match ← peek with
  | some (.anchor name) =>
    advance
    return some name
  | _ => return none

def tag? : Reader (Option (Option (List Char) × List Char)) := do
  match ← peek with
  | some (.tag handle suffix) =>
    advance
    return some (handle, suffix)
  | _ => return none

def writtenOut : Option (Option (List Char) × List Char) → Reader (Option (List Char))
  | none => return none
  | some (none, suffix) => return some suffix
  | some (some handle, suffix) => do
    match (← get).handles.get? handle with
    | some start => return some (start ++ suffix)
    | none => refuse

def properties : Reader (Option (List Char) × Option (List Char)) := do
  match ← anchor? with
  | some a =>
    let t ← tag?
    return (some a, ← writtenOut t)
  | none =>
    let t ← tag?
    let a ← if t.isSome then anchor? else pure none
    return (a, ← writtenOut t)

/-- Adds a node, under a new name if it has an anchor; the result is its number. -/
def add (anchor : Option (List Char)) (n : Node) : Reader Nat := do
  let u ← get
  let number := u.nodes.size
  match anchor with
  | none => set { u with nodes := u.nodes.push n }
  | some a =>
    if (u.anchors.get? a).isSome then refuse
    set { u with nodes := u.nodes.push n, anchors := u.anchors.put a number }
  return number

def replace (number : Nat) (n : Node) : Reader Unit :=
  modify fun u => { u with nodes := u.nodes.setIfInBounds number n }

/-- Reads what is in a collection, which takes up room for two. -/
def within {α : Type} (read : Reader α) : Reader α := do
  let room := (← get).room
  if room < 2 then throw .tooDeep
  modify fun u => { u with room := room - 2 }
  let a ← read
  modify fun u => { u with room := room }
  return a

/-- Adds a sequence whose items are read afterwards, so that they can refer to it. -/
def addSequence (anchor : Option (List Char)) (tag : List Char) (items : Reader (List Nat)) :
    Reader Nat := do
  let number ← add anchor (.sequence tag [])
  replace number (.sequence tag (← within items))
  return number

/-- Adds a mapping whose entries are read afterwards, so that they can refer to it. -/
def addMapping (anchor : Option (List Char)) (tag : List Char)
    (entries : Reader (List (Nat × Nat))) : Reader Nat := do
  let number ← add anchor (.mapping tag [])
  replace number (.mapping tag (← within entries))
  return number

end Reader

def collectionTag (tag : Option (List Char)) (word : String) : List Char :=
  match tag with
  | some t => if t = ['!'] then coreTag word else t
  | none => coreTag word

/-- The tag of a scalar: its own one, the one of its form if it is plain, or that of a text. -/
def scalarTag (tag : Option (List Char)) (text : List Char) (plain : Bool) : List Char :=
  match tag with
  | some t => if t = ['!'] then plainTag text else t
  | none => if plain then plainTag text else coreTag "str"

/-- Where a node stands: between brackets, in a block, or where a sequence of a block needs no
indentation of its own. -/
inductive Position where
  | flow
  | block
  | besideKey
deriving DecidableEq, Repr

open Reader

mutual

/-- A node, read with at most `fuel` levels and steps; the result is its number. -/
def node (pos : Position) : (fuel : Nat) → Reader Nat
  | 0 => refuse
  | fuel + 1 => do
    match ← peek with
    | some (.alias a) =>
      advance
      match (← get).anchors.get? a with
      | some n => return n
      | none => refuse
    | _ =>
      let (anchor, tag) ← properties
      content pos anchor tag fuel

def content (pos : Position) (anchor tag : Option (List Char)) : (fuel : Nat) → Reader Nat
  | 0 => refuse
  | fuel + 1 => do
    match ← peek with
    | some (.scalar text plain) =>
      advance
      add anchor (.scalar (scalarTag tag text plain) text)
    | some .openSequence =>
      advance
      addSequence anchor (collectionTag tag "seq") (flowItems true fuel)
    | some .openMapping =>
      advance
      addMapping anchor (collectionTag tag "map") (flowEntries true fuel)
    | some .blockSequence =>
      if pos = .flow then unwritten
      else
        advance
        addSequence anchor (collectionTag tag "seq") do
          let items ← blockItems [.item, .blockEnd] fuel
          expect .blockEnd
          return items
    | some .blockMapping =>
      if pos = .flow then unwritten
      else
        advance
        addMapping anchor (collectionTag tag "map") (blockEntries fuel)
    | some .item =>
      if pos = .besideKey then
        addSequence anchor (collectionTag tag "seq")
          (blockItems [.item, .key, .value, .blockEnd] fuel)
      else unwritten
    | _ => unwritten
where
  /-- An empty node has to have an anchor or a tag. -/
  unwritten : Reader Nat :=
    if anchor.isSome || tag.isSome then add anchor (.scalar (scalarTag tag [] true) []) else refuse

def nodeUnless (stops : List Token) (pos : Position) : (fuel : Nat) → Reader Nat
  | 0 => refuse
  | fuel + 1 => do if ← isNext stops then add none .empty else node pos fuel

def valueUnless (stops : List Token) (pos : Position) : (fuel : Nat) → Reader Nat
  | 0 => refuse
  | fuel + 1 => do if ← skip .value then nodeUnless stops pos fuel else add none .empty

/-- The items of a sequence in a block; an item may be left out in front of the given tokens. -/
def blockItems (stops : List Token) : (fuel : Nat) → Reader (List Nat)
  | 0 => refuse
  | fuel + 1 => do
    if ← skip .item then
      let n ← nodeUnless stops .block fuel
      return n :: (← blockItems stops fuel)
    else return []

/-- The entries of a mapping in a block, up to the end of the block. -/
def blockEntries : (fuel : Nat) → Reader (List (Nat × Nat))
  | 0 => refuse
  | fuel + 1 => do
    if ← skip .key then
      let stops := [.key, .value, .blockEnd]
      let k ← nodeUnless stops .besideKey fuel
      let v ← valueUnless stops .besideKey fuel
      return (k, v) :: (← blockEntries fuel)
    else
      expect .blockEnd
      return []

/-- The items of a sequence between brackets, up to the closing one. An item with the mark of a key
is a mapping with one entry. -/
def flowItems (first : Bool) : (fuel : Nat) → Reader (List Nat)
  | 0 => refuse
  | fuel + 1 => do
    if ← skip .closeSequence then return []
    else
      if !first then expect .comma
      if ← skip .key then
        let n ← addMapping none (coreTag "map") do
          let k ← nodeUnless [.value, .comma, .closeSequence] .flow fuel
          let v ← valueUnless [.comma, .closeSequence] .flow fuel
          return [(k, v)]
        return n :: (← flowItems false fuel)
      else if ← skip .closeSequence then return []
      else
        let n ← node .flow fuel
        return n :: (← flowItems false fuel)

/-- The entries of a mapping between brackets, up to the closing one. A node without the mark of a
key is a key without a value. -/
def flowEntries (first : Bool) : (fuel : Nat) → Reader (List (Nat × Nat))
  | 0 => refuse
  | fuel + 1 => do
    if ← skip .closeMapping then return []
    else
      if !first then expect .comma
      if ← skip .key then
        let k ← nodeUnless [.value, .comma, .closeMapping] .flow fuel
        let v ← valueUnless [.comma, .closeMapping] .flow fuel
        return (k, v) :: (← flowEntries false fuel)
      else if ← skip .closeMapping then return []
      else
        let k ← node .flow fuel
        let v ← add none .empty
        return (k, v) :: (← flowEntries false fuel)

end

def standardHandles : Table (List Char) (List Char) :=
  [("!".toList, "!".toList), ("!!".toList, coreTag "")]

/-- The directives at the head of a document, in at most `fuel` steps: what they let the handles of
tags stand for. The version, if there is one, is one that can be read and is given once. -/
def directives : (fuel : Nat) → (versioned : Bool) → Table (List Char) (List Char) →
    Reader (Table (List Char) (List Char))
  | 0, _, _ => refuse
  | fuel + 1, versioned, handles => do
    match ← peek with
    | some (.directive d) =>
      advance
      match d with
      | .version major =>
        if versioned || major ≠ 1 then refuse
        directives fuel true handles
      | .tag handle uri =>
        if (handles.get? handle).isSome then refuse
        directives fuel versioned ((handle, uri) :: handles)
      | .other => directives fuel versioned handles
    | _ => return handles

def documentStart (fuel : Nat) : Reader Unit := do
  let handles ← directives fuel false []
  expect .documentStart
  modify fun u => { u with handles := handles ++ standardHandles }

/-- The node of a document, which may be left out behind the mark of its beginning. -/
def documentRoot (fuel : Nat) : Reader Nat := do
  let ends ← match ← peek with
    | none => pure true
    | some (.directive _) => pure true
    | some t => pure (t = .documentStart || t = .documentEnd)
  if ends then add none .empty else node .block fuel

/-- The end of a text behind its only document: nothing but marks of the end of it. -/
def textEnd : (fuel : Nat) → Reader Unit
  | 0 => refuse
  | fuel + 1 => do
    if ← skip .documentEnd then textEnd fuel
    else if (← peek).isSome then
      documentStart fuel
      refuse

def onlyDocument (fuel : Nat) : Reader (Option Nat) := do
  match ← peek with
  | none => return none
  | some t =>
    let explicit : Bool := match t with
      | .directive _ => true
      | t => t = .documentStart
    let root ← if explicit then do
        documentStart fuel
        documentRoot fuel
      else node .block fuel
    textEnd fuel
    return some root

/-- The document of a text, of which a part can be read; none if the text is empty. -/
def Document.read (room : Nat) (cs : List Char) (fault : Option Undecodable) :
    Except Undecodable (Option Document) := do
  let lexer := Lexer.start (Place.start cs fault)
  let (root, u) ← (onlyDocument (16 * lexer.size)).run ⟨lexer, #[], [], standardHandles, room⟩
  return root.map fun r => ⟨u.nodes, r⟩

end Yaml

end Coinage
