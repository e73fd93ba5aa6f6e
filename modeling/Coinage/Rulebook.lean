import Coinage.Pattern.Compile
import Coinage.Rulebook.Cycle
import Coinage.Table

/-!
# Rulebooks

A rulebook holds the rules of named productions. A name is resolved to the slot of its rule, its
place in the order of the names; all rules are linked, and no production can reach itself.
-/

namespace Coinage

inductive Definition where
  | text (source : List Char)
  | compiled (p : Pattern)

def Definition.pattern : Definition → Except Refusal Pattern
  | .text source => Pattern.compile source
  | .compiled p => .ok p

inductive RulebookError where
  | refused (r : Refusal)
  /-- A production reaches itself along these names, of which the first is repeated at the end. -/
  | cyclic (cycle : List Name)
deriving DecidableEq, Repr

def cycleMessage (cycle : List Name) : List Char :=
  "cyclic production: ".toList ++ List.intercalate " -> ".toList cycle

structure Rulebook where
  names : List Name
  rules : List Tree

namespace Rulebook

def empty : Rulebook := ⟨[], []⟩

/-- The slot of a name: its place among the names. -/
def slotOf (b : Rulebook) (name : Name) : Option Int := (b.names.idxOf? name).map Int.ofNat

/-- The rule in a slot. A negative slot counts from the end. -/
def rule? (b : Rulebook) (slot : Int) : Option Tree :=
  if 0 ≤ slot then b.rules[slot.toNat]?
  else if 0 ≤ b.rules.length + slot then b.rules[(b.rules.length + slot).toNat]?
  else none

def successors (t : Table Name Tree) (name : Name) : List Name :=
  (t.get? name).elim [] Tree.references

/-- The rulebook of a table of trees, or the first cycle of their references. -/
def ofTable (t : Table Name Tree) : Except RulebookError Rulebook :=
  match firstCycle? t.keys (successors t) with
  | some cycle => .error (.cyclic cycle)
  | none =>
    let linkless : Rulebook := ⟨t.keys, []⟩
    .ok ⟨t.keys, t.map fun e => e.2.link linkless.slotOf⟩

/-- The tree of one definition, whose name has to be an identifier. -/
def readEntry (e : Name × Definition) : Except Refusal (Name × Tree) :=
  if isIdentifier e.1 then do
    let p ← e.2.pattern
    return (e.1, p.root)
  else .error (.pattern ⟨.badIdentifier, e.1, 0⟩)

/-- The rulebook of a list of definitions; the first fault in their order is reported, and cycles
after all others. -/
def build (ds : Table Name Definition) : Except RulebookError Rulebook :=
  match ds.mapM readEntry with
  | .error r => .error (.refused r)
  | .ok t => ofTable t

end Rulebook

end Coinage
