import Coinage.Config.LanguageFile
import Coinage.Generation

/-!
# Troubles

What can come in the way of making words on request, and what of it is reported.
-/

namespace Coinage

inductive Trouble where
  | language (e : LoadError)
  | pattern (r : Refusal)
  | rules (e : RulebookError)
  | generation (f : Failure)
  /-- The words cannot be added to the file at the path. -/
  | target (path : List Char) (f : OpenFault)
  /-- A line cannot be encoded. -/
  | unwritable (reason : List Char)
  /-- An option that takes a number of words is blank. -/
  | blankCount
  /-- An option that takes another number is blank. -/
  | blankNumber
deriving Repr

namespace Trouble

def message : Trouble → List Char
  | language e => e.message
  | pattern r => r.message
  | rules (.refused r) => r.message
  | rules (.cyclic cycle) => cycleMessage cycle
  | generation f => f.message
  | target path f => f.message path
  | unwritable reason => reason
  | blankCount => "'list' object cannot be interpreted as an integer".toList
  | blankNumber =>
    "int() argument must be a string, a bytes-like object or a real number, not 'list'".toList

def isReported : Trouble → Bool
  | language e => e.isReported
  | pattern r => r.isFlaw
  | rules (.refused r) => r.isFlaw
  | rules (.cyclic _) => true
  | generation (.unknown _) => true
  | generation (.tooDeep _) => true
  | generation .emptyChoice => true
  | generation _ => false
  | target _ f => f.isReported
  | unwritable _ => false
  | blankCount => false
  | blankNumber => false

end Trouble

end Coinage
