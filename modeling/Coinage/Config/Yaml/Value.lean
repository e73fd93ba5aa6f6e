import Coinage.Config.Yaml.Atom
import Coinage.Config.Yaml.Node
import Coinage.Config.Yaml.Portion

/-!
# The values of YAML documents

Scalars become values at once, and collections when their turn comes: first the root, then what is
in it, level by level. So of two values that do not exist the one that is less deep is met first,
and a collection can be in itself. A mapping takes over the entries of other mappings under the key
`<<`: its own entries come after them and win over them, and of several mappings the first wins.
-/

namespace Coinage

namespace Yaml

inductive Kind where
  | atom (k : AtomKind)
  | list
  /-- A list of mappings with one entry each. -/
  | pairs
  | set
  | mapping
deriving DecidableEq, Repr

def kinds : Table (List Char) Kind := [
  (coreTag "null", .atom .null), (coreTag "bool", .atom .bool), (coreTag "int", .atom .int),
  (coreTag "float", .atom .float), (coreTag "binary", .atom .bytes),
  (coreTag "timestamp", .atom .moment), (coreTag "str", .atom .text), (coreTag "seq", .list),
  (coreTag "omap", .pairs), (coreTag "pairs", .pairs), (coreTag "set", .set),
  (coreTag "map", .mapping)]

/-- What a node has become. Values in a collection are given by the numbers of their nodes. -/
inductive Made where
  | atom (d : Data)
  | list (items : List Nat)
  | pairs (entries : List (Nat × Nat))
  | set (members : List Data)
  | mapping (entries : List (Data × Nat))

def Made.blank : Kind → Made
  | .atom _ => .atom .null
  | .list => .list []
  | .pairs => .pairs []
  | .set => .set []
  | .mapping => .mapping []

structure Workshop where
  nodes : Array Node
  /-- What has been made of the nodes, by their numbers. -/
  made : Array (Option Made)
  /-- The collections that have no content yet, latest first. -/
  waiting : List Nat

abbrev Work := StateT Workshop (Except Undecodable)

namespace Work

def refuse {α : Type} : Work α := throw .malformed

def node (number : Nat) : Work Node := do
  match (← get).nodes[number]? with
  | some n => return n
  | none => refuse

def entries (number : Nat) : Work (List (Nat × Nat)) := do
  match ← node number with
  | .mapping _ es => return es
  | _ => return []

def change (number : Nat) (f : Node → Node) : Work Unit :=
  modify fun w => { w with nodes := w.nodes.modify number f }

def setEntries (number : Nat) (es : List (Nat × Nat)) : Work Unit :=
  change number fun n => .mapping n.tag es

def note (number : Nat) (m : Made) : Work Unit :=
  modify fun w => { w with made := w.made.setIfInBounds number (some m) }

/-! ### Scalars -/

/-- The text of a scalar. A mapping stands for its value under the key `=`, which has no end if it
comes back to the mapping. -/
def text : (fuel : Nat) → (number : Nat) → Work (List Char)
  | 0, _ => throw .tooDeep
  | fuel + 1, number => do
    match ← node number with
    | .scalar _ cs => return cs
    | .sequence _ _ => refuse
    | .mapping _ es =>
      let found ← es.findM? fun e => do return (← node e.1).tag = coreTag "value"
      match found with
      | some e => text fuel e.2
      | none => refuse

def atom (k : AtomKind) (number : Nat) : Work Data := do
  let cs ← text ((← get).nodes.size + 1) number
  match k, ← node number with
  | .moment, .mapping _ _ => throw (.badValue .dateOfMapping)
  | k, _ => k.read cs

/-- Makes the value of a node, unless it has been made; a collection stays without content for the
time being. -/
def make (number : Nat) : Work Unit := do
  if let some (some _) := (← get).made[number]? then return
  match kinds.get? (← node number).tag with
  | none => refuse
  | some (.atom k) => note number (.atom (← atom k number))
  | some k =>
    note number (.blank k)
    modify fun w => { w with waiting := number :: w.waiting }

/-! ### Entries that are taken over -/

mutual

/-- The entries of a mapping from the given index on are searched for those under `<<`, in at most
`steps` steps and `fuel` mappings. These are removed, and what is taken over is added to `taken`.
The key `=` becomes a text. -/
def takeOver (fuel steps number index : Nat) (taken : List (Nat × Nat)) :
    Work (List (Nat × Nat)) := do
  match steps with
  | 0 => refuse
  | steps + 1 =>
    let some (k, v) := (← entries number)[index]? | return taken
    let tag := (← node k).tag
    if tag = coreTag "merge" then
      match fuel with
      | 0 => refuse
      | fuel + 1 =>
        setEntries number ((← entries number).eraseIdx index)
        let more ← match ← node v with
          | .scalar _ _ => refuse
          | .sequence _ items => takeOverAll fuel items
          | .mapping _ _ => takeOverAll fuel [v]
        takeOver fuel ((← entries number).length + 1) number index (taken ++ more)
    else
      if tag = coreTag "value" then change k (Node.retag (coreTag "str"))
      takeOver fuel steps number (index + 1) taken
termination_by (fuel, 0, steps)

/-- The entries of some mappings, those of the first one last. -/
def takeOverAll (fuel : Nat) (numbers : List Nat) : Work (List (Nat × Nat)) := do
  match numbers with
  | [] => return []
  | n :: ns =>
    match ← node n with
    | .mapping _ _ =>
      flatten fuel n
      let es ← entries n
      return (← takeOverAll fuel ns) ++ es
    | _ => refuse
termination_by (fuel, 2, numbers.length)

/-- Puts what a mapping takes over in front of its own entries. -/
def flatten (fuel number : Nat) : Work Unit := do
  let taken ← takeOver fuel ((← entries number).length + 1) number 0 []
  setEntries number (taken ++ (← entries number))
termination_by (fuel, 1, 0)

end

/-! ### Collections -/

def key (number : Nat) : Work Data := do
  make number
  match (← get).made[number]? with
  | some (some (.atom d)) => return d
  | _ => refuse

/-- Makes the values of a mapping, once it has taken over what it takes over. -/
def mappingEntries (number : Nat) : Work (List (Data × Nat)) := do
  match ← node number with
  | .mapping _ _ =>
    let sizes := (← get).nodes.toList.map fun
      | .mapping _ es => es.length
      | _ => 0
    flatten (sizes.foldl (· + ·) 0) number
    (← entries number).mapM fun e => do
      let k ← key e.1
      make e.2
      return (k, e.2)
  | _ => refuse

def pair (number : Nat) : Work (Nat × Nat) := do
  match ← node number with
  | .mapping _ [(k, v)] =>
    make k
    make v
    return (k, v)
  | _ => refuse

def content (k : Kind) (number : Nat) : Work Made := do
  match k, ← node number with
  | .list, .sequence _ items =>
    items.forM make
    return .list items
  | .pairs, .sequence _ items => return .pairs (← items.mapM pair)
  | .set, _ => return .set ((← mappingEntries number).map Prod.fst)
  | .mapping, _ => return .mapping (← mappingEntries number)
  | _, _ => refuse

def fill (number : Nat) : Work Unit := do
  match kinds.get? (← node number).tag with
  | some k => note number (← content k number)
  | none => refuse

/-- Gives all collections their content, those first that have waited longest, in at most `fuel`
rounds. -/
def fillAll : (fuel : Nat) → Work Unit
  | 0 => pure ()
  | fuel + 1 => do
    let w ← get
    if w.waiting ≠ [] then
      set { w with waiting := [] }
      w.waiting.reverse.forM fill
      fillAll fuel

end Work

/-- The value of a node, down to so many levels of collections. What is deeper is left empty. -/
def dataOf (made : Array (Option Made)) : (levels : Nat) → (number : Nat) → Data
  | 0, _ => .null
  | levels + 1, number =>
    match made[number]? with
    | some (some (.atom d)) => d
    | some (some (.list items)) => .list (items.map (dataOf made levels))
    | some (some (.pairs es)) =>
      .list (es.map fun e => .list [dataOf made levels e.1, dataOf made levels e.2])
    | some (some (.set ms)) => .set ms
    | some (some (.mapping es)) => .ofEntries (es.map fun e => (e.1, dataOf made levels e.2))
    | _ => .null

/-- How many levels of collections are worked out. The definition of a language has fewer; a value
that contains itself has no end. -/
def levels : Nat := 4

def Document.value (d : Document) : Except Undecodable Data := do
  let size := d.nodes.size
  let work : Work Unit := do
    Work.make d.root
    Work.fillAll (size + 1)
  let (_, w) ← work.run ⟨d.nodes, Array.replicate size none, []⟩
  return dataOf w.made levels d.root

def decode (room : Nat) (bytes : List UInt8) : Except Undecodable Data := do
  let (cs, fault) := readable bytes
  match ← Document.read room cs fault with
  | some d => d.value
  | none => return .null

end Yaml

end Coinage
