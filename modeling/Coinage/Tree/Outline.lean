import Coinage.Text.Blank
import Coinage.Text.Quoted
import Coinage.Tree

/-!
# Outlines

The outline of a tree has one line for every node, a node before its children, indented by two
spaces for every level. Up to level zero there is no indentation. White space at the end of a line
is cut off.
-/

namespace Coinage

namespace Tree

def outlineLine (level : Int) (text : List Char) : List Char :=
  trimRight isBlank (List.replicate (2 * level).toNat ' ' ++ text)

mutual

def outline (level : Int) : Tree → List (List Char)
  | particle v b => [outlineLine level ("PARTICLE ".toList ++ quoted v ++ ' ' :: b.suffix)]
  | reference name b _ => [outlineLine level ("PRODUCTION ".toList ++ name ++ ' ' :: b.suffix)]
  | choice ts b => outlineLine level ("ALT ".toList ++ b.suffix) :: outlineAll (level + 1) ts
  | sequence ts b => outlineLine level ("SEQ ".toList ++ b.suffix) :: outlineAll (level + 1) ts
  | stray _ => []

def outlineAll (level : Int) : List Tree → List (List Char)
  | [] => []
  | t :: ts => t.outline level ++ outlineAll level ts

end

/-- The outline, or nothing when the tree holds something that is no node. -/
def outline? (level : Int) (t : Tree) : Option (List (List Char)) :=
  if t.isProper then some (t.outline level) else none

end Tree

end Coinage
