import Coinage.Bounds
import Coinage.Name

/-!
# Pattern trees

A pattern is a tree of four kinds of nodes, each with bounds for its repetitions. A reference to a
named production carries the slot of its rule once the tree is linked. Trees that do not come from
a pattern can hold a fifth kind, bare bounds where a node belongs; no operation accepts it.
-/

namespace Coinage

inductive Tree where
  /-- A text that is written out as it stands. -/
  | particle (value : List Char) (bounds : Bounds)
  /-- A named production, and the place of its rule if the tree is linked and there is one. -/
  | reference (name : Name) (bounds : Bounds) (slot : Option Int)
  /-- One of the children at each repetition. -/
  | choice (children : List Tree) (bounds : Bounds)
  /-- All children in order at each repetition. -/
  | sequence (children : List Tree) (bounds : Bounds)
  /-- Bare bounds where a node belongs. -/
  | stray (bounds : Bounds)
deriving Repr

namespace Tree

mutual

/-- Every node is of one of the four kinds that patterns have. -/
def isProper : Tree → Bool
  | particle .. => true
  | reference .. => true
  | choice ts _ => areProper ts
  | sequence ts _ => areProper ts
  | stray _ => false

def areProper : List Tree → Bool
  | [] => true
  | t :: ts => t.isProper && areProper ts

end

mutual

/-- The names of the productions that a tree refers to, in order and with repetitions. -/
def references : Tree → List Name
  | particle .. => []
  | reference name _ _ => [name]
  | choice ts _ => referencesAll ts
  | sequence ts _ => referencesAll ts
  | stray _ => []

def referencesAll : List Tree → List Name
  | [] => []
  | t :: ts => t.references ++ referencesAll ts

end

mutual

/-- Gives every reference the slot that `slotOf` has for its name, whatever slot it had. -/
def link (slotOf : Name → Option Int) : Tree → Tree
  | particle v b => particle v b
  | reference name b _ => reference name b (slotOf name)
  | choice ts b => choice (linkAll slotOf ts) b
  | sequence ts b => sequence (linkAll slotOf ts) b
  | stray b => stray b

def linkAll (slotOf : Name → Option Int) : List Tree → List Tree
  | [] => []
  | t :: ts => t.link slotOf :: linkAll slotOf ts

end

/-- A linked tree, or nothing when the tree holds something that is no node. -/
def link? (slotOf : Name → Option Int) (t : Tree) : Option Tree :=
  if t.isProper then some (t.link slotOf) else none

mutual

/-- Equality of trees up to the slots of their references. -/
def alike : Tree → Tree → Bool
  | particle v b, particle w c => v = w ∧ b = c
  | reference n b _, reference m c _ => n = m ∧ b = c
  | choice ts b, choice us c => alikeAll ts us && b = c
  | sequence ts b, sequence us c => alikeAll ts us && b = c
  | stray b, stray c => b = c
  | _, _ => false

def alikeAll : List Tree → List Tree → Bool
  | [], [] => true
  | t :: ts, u :: us => t.alike u && alikeAll ts us
  | _, _ => false

end

end Tree

end Coinage
