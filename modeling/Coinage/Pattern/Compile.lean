import Coinage.Pattern.Lexeme
import Coinage.Tree

/-!
# Compiling patterns

The lexemes of a pattern are put together to a tree one after the other, with a stack of the groups
that are open. A closing bracket closes the innermost group if it is that group's own, and is an
ordinary character otherwise. The root of a pattern is a sequence that is run once.
-/

namespace Coinage

/-- A group that is open: its kind, its place, and what stands before it in the group around it,
last node first. -/
structure OpenGroup where
  kind : GroupKind
  pos : Nat
  before : List Tree

/-- What has been read of a pattern: the nodes of the innermost open group, last node first, and
the open groups, innermost first. -/
structure Nesting where
  nodes : List Tree
  groups : List OpenGroup

namespace Nesting

def start : Nesting := ⟨[], []⟩

def push (t : Tree) (n : Nesting) : Nesting := { n with nodes := t :: n.nodes }

/-- The innermost group, if the character closes it, and the groups around it. -/
def closedBy? (c : Char) : List OpenGroup → Option (OpenGroup × List OpenGroup)
  | [] => none
  | g :: gs => if c = g.kind.closer then some (g, gs) else none

/-- The node of a group that is closed behind the given children; an alternation needs one. -/
def OpenGroup.node (g : OpenGroup) (children : List Tree) (b : Bounds) : Except Stop Tree :=
  match g.kind, children with
  | .choice, [] => .error (.flaw .emptyChoice g.pos)
  | .choice, ts => .ok (.choice ts b)
  | .sequence, ts => .ok (.sequence ts b)

def read (n : Nesting) : Lexeme → Except Stop Nesting
  | .opener kind pos =>
    if n.groups.length < maxNesting then .ok ⟨[], ⟨kind, pos, n.nodes⟩ :: n.groups⟩
    else .error (.flaw .tooDeep pos)
  | .literal c => .ok (n.push (.particle [c] .once))
  | .reference name b => .ok (n.push (.reference name b none))
  | .plain c b =>
    match closedBy? c n.groups with
    | none => .ok (n.push (.particle [c] b))
    | some (g, gs) => do
      let t ← OpenGroup.node g n.nodes.reverse b
      return ⟨t :: g.before, gs⟩
  | .unfinished c =>
    match closedBy? c n.groups with
    | none => .ok n
    | some (g, _) => do
      let _ ← OpenGroup.node g n.nodes.reverse .once
      return n

/-- The root, once the text has ended at `pos` with no group open. -/
def root (n : Nesting) (pos : Nat) : Except Stop Tree :=
  match n.groups with
  | [] => .ok (.sequence n.nodes.reverse .once)
  | _ :: _ => .error (.flaw .unexpectedEnd pos)

end Nesting

def Reading.tree (r : Reading) : Except Stop Tree := do
  let n ← r.lexemes.foldlM Nesting.read Nesting.start
  let pos ← r.ending
  n.root pos

structure Pattern where
  source : List Char
  root : Tree

def Pattern.compile (source : List Char) : Except Refusal Pattern :=
  match (Cursor.start source).lexemes.tree with
  | .ok t => .ok ⟨source, t⟩
  | .error s => .error (s.refusal source)

end Coinage
