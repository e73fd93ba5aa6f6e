import Coinage.Name

/-!
# Cycles of references

A depth-first search for a cycle. It starts at the names in order and takes the successors of a
name in order. Every name is fresh, then on the trail, then finished; a successor on the trail
closes a cycle, and one that is neither fresh nor on the trail is finished or no name of the graph.
-/

namespace Coinage

/-- The names that are being followed, innermost first, each with the successors not yet tried. -/
abbrev Trail := List (Name × List Name)

/-- How many steps are left before the trail is worked off. -/
def Trail.steps : Trail → Nat
  | [] => 0
  | (_, ms) :: trail => ms.length + 1 + steps trail

/-- The cycle that a step to `m` closes, if the names, innermost first, lead from `m` to here. -/
def closedCycle (m : Name) (names : List Name) : List Name :=
  m :: (names.takeWhile (· ≠ m)).reverse ++ [m]

/-- The first cycle that the search meets, with its first name repeated at the end. -/
def searchCycle (next : Name → List Name) (fresh : List Name) (trail : Trail) :
    Option (List Name) :=
  match trail with
  | [] =>
    match fresh with
    | [] => none
    | n :: fresh => searchCycle next fresh [(n, next n)]
  | (_, []) :: trail => searchCycle next fresh trail
  | (n, m :: ms) :: trail =>
    if m ∈ fresh then searchCycle next (fresh.erase m) ((m, next m) :: (n, ms) :: trail)
    else if m ∈ n :: trail.map Prod.fst then some (closedCycle m (n :: trail.map Prod.fst))
    else searchCycle next fresh ((n, ms) :: trail)
termination_by (fresh.length, trail.steps)
decreasing_by
  · exact Prod.Lex.left _ _ (Nat.lt_succ_self _)
  · exact Prod.Lex.right _ (by simp only [Trail.steps, List.length_nil]; omega)
  · rename_i h
    have := List.length_erase_of_mem h
    have := List.length_pos_of_mem h
    exact Prod.Lex.left _ _ (by omega)
  · exact Prod.Lex.right _ (by simp only [Trail.steps, List.length_cons]; omega)

def firstCycle? (names : List Name) (next : Name → List Name) : Option (List Name) :=
  searchCycle next names []

end Coinage
