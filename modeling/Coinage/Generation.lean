import Coinage.Chance.Count
import Coinage.Setting

/-!
# Making words

A word is made by expanding a linked tree. Every node fixes the number of its repetitions by one
draw, and then at each repetition a particle is written out, a reference expands its rule, an
alternation expands one child of its choice, and a sequence expands every child in order. The first
failure ends the run; what has been written until then stays written.
-/

namespace Coinage

/-- What changes while words are made: the source of chance, and the text written so far. -/
structure Run (ρ : Type) where
  draws : ρ
  text : Array Char

inductive Failure where
  /-- A reference without a rule is reached. -/
  | unknown (name : Name)
  /-- A node is deeper than the budget allows. -/
  | tooDeep (budget : Int)
  /-- The width between two bounds is too large to draw from. -/
  | tooWide
  | emptyChoice
  /-- There is nothing in the place of a rule or of a child. -/
  | noRule
  /-- A node is none. -/
  | notANode
deriving DecidableEq, Repr

def Failure.message : Failure → List Char
  | .unknown name => "unknown production: ".toList ++ name
  | .tooDeep budget => "recursion limit of ".toList ++ signedDecimal budget ++ " exceeded".toList
  | .tooWide => "int too large to convert to float".toList
  | .emptyChoice => Flaw.emptyChoice.message
  | .noRule => "tuple index out of range".toList
  | .notANode => "unknown node kind: Range".toList

/-- A step of making words: it changes the run, and succeeds or fails. -/
abbrev Act (ρ : Type) := EStateM Failure (Run ρ)

def times {ε σ : Type} (act : EStateM ε σ Int) : (n : Nat) → (total : Int) → EStateM ε σ Int
  | 0, total => fun s => .ok total s
  | n + 1, total => fun s =>
    match act s with
    | .ok k s => times act n (total + k) s
    | .error e s => .error e s

/-- Does the action for every element in order and adds up its results. -/
def inOrder {ε σ α : Type} (act : α → EStateM ε σ Int) :
    List α → (total : Int) → EStateM ε σ Int
  | [], total => fun s => .ok total s
  | a :: as, total => fun s =>
    match act a s with
    | .ok k s => inOrder act as (total + k) s
    | .error e s => .error e s

namespace Act

variable {ρ : Type}

def emit (v : List Char) : Act ρ Int := fun r => .ok 1 { r with text := r.text ++ v }

variable [Draws ρ]

def count (b : Bounds) : Act ρ Int := fun r =>
  match b.count r.draws with
  | (some n, d) => .ok n { r with draws := d }
  | (none, d) => .error .tooWide { r with draws := d }

def repeated (b : Bounds) (act : Act ρ Int) : Act ρ Int := do
  let n ← count b
  times act n.toNat 0

/-- One of the elements `t :: ts`; a lawful draw is the place of one. -/
def pick (t : Tree) (ts : List Tree) : Act ρ Tree := fun r =>
  let (i, d) := Draws.below (ts.length + 1) r.draws
  match (t :: ts)[i]? with
  | some u => .ok u { r with draws := d }
  | none => .error .noRule { r with draws := d }

end Act

namespace Run

variable {ρ : Type}

def start (d : ρ) : Run ρ := ⟨d, #[]⟩

def reset (r : Run ρ) : Run ρ := { r with text := #[] }

/-- What has been written behind the first `n` characters. -/
def since (r : Run ρ) (n : Nat) : List Char := (r.text.extract n r.text.size).toList

end Run

structure Abort where
  failure : Failure
  written : List Char
deriving DecidableEq, Repr

namespace Setting

variable {ρ : Type}

def rule (s : Setting) (name : Name) (slot : Option Int) : Act ρ Tree :=
  match slot with
  | none => throw (.unknown name)
  | some i =>
    match s.book.rule? i with
    | none => throw .noRule
    | some t => pure t

variable [Draws ρ]

/-- Expands a node with room for the given number of levels; the result is the number of texts
written. -/
def expandWithin (s : Setting) : (room : Nat) → Tree → Act ρ Int
  | 0, _ => throw (.tooDeep s.budget)
  | room + 1, t =>
    match t with
    | .particle v b => Act.repeated b (Act.emit v)
    | .reference name b slot => Act.repeated b (do expandWithin s room (← s.rule name slot))
    | .choice [] _ => throw .emptyChoice
    | .choice (t :: ts) b => Act.repeated b (do expandWithin s room (← Act.pick t ts))
    | .sequence ts b => Act.repeated b (inOrder (expandWithin s room) ts 0)
    | .stray _ => throw .notANode

def expand (s : Setting) (t : Tree) (level : Int) : Act ρ Int := s.expandWithin (s.room level) t

def word (s : Setting) (t : Tree) : EStateM Abort (Run ρ) (List Char) := fun r =>
  let n := r.text.size
  match s.expand t 0 r with
  | .ok _ r => .ok (r.since n) r
  | .error e r => .error ⟨e, r.since n⟩ r

/-- Links a tree and makes one word from it, behind the text written so far. -/
def generate (s : Setting) (t : Tree) : EStateM Abort (Run ρ) (List Char) := fun r =>
  match t.link? s.book.slotOf with
  | none => .error ⟨.notANode, []⟩ r
  | some t => s.word t r

/-- Makes `n` words from a linked tree, each in place of the text written before. -/
def words (s : Setting) (t : Tree) : (n : Nat) → (made : Array (List Char)) →
    EStateM Abort (Run ρ) (List (List Char))
  | 0, made => fun r => .ok made.toList r
  | n + 1, made => fun r =>
    match s.word t r.reset with
    | .ok w r => words s t n (made.push w) r
    | .error e r => .error e r

/-- Links a tree and makes a number of words from it, in one stream of draws. -/
def generateBatch (s : Setting) (t : Tree) (count : Int) :
    EStateM Abort (Run ρ) (List (List Char)) := fun r =>
  match t.link? s.book.slotOf with
  | none => .error ⟨.notANode, []⟩ r
  | some t => s.words t count.toNat #[] r

end Setting

end Coinage
