import Coinage.Rulebook

/-!
# Settings

What stays fixed while words are made: the seed, the rules of the named productions, and how deep
a run may go.
-/

namespace Coinage

def defaultBudget : Int := 200

/-- What stays fixed while words are made. -/
structure Setting where
  seed : Int
  book : Rulebook
  /-- The deepest level at which a node may be expanded; the root is at level zero. -/
  budget : Int
  /-- How many levels a run may have in any case; none if there is no such limit. -/
  ceiling : Option Nat

namespace Setting

/-- The setting of a seed, a list of definitions and a budget, where runs have a ceiling. -/
def build (seed : Int) (ds : Table Name Definition) (budget : Int) (ceiling : Option Nat) :
    Except RulebookError Setting := do
  return ⟨seed, ← Rulebook.build ds, budget, ceiling⟩

/-- How many levels a node at the given level may take up, itself included. -/
def room (s : Setting) (level : Int) : Nat :=
  let levels := (s.budget - level + 1).toNat
  match s.ceiling with
  | none => levels
  | some c => min levels c

def summary (s : Setting) : List Char :=
  "Context(seed=".toList ++ signedDecimal s.seed ++ ", productions=[".toList
    ++ List.intercalate ", ".toList (s.book.names.map quoted)
    ++ "], max_depth=".toList ++ signedDecimal s.budget ++ ")".toList

end Setting

end Coinage
