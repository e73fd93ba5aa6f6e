import Coinage.Config.Data
import Coinage.Setting

/-!
# Languages

The definition of a language: its name, the pattern of its words, and the productions that the
pattern refers to. It is read from decoded data that have to be of the right shape; the first fault
is reported.
-/

namespace Coinage

structure Language where
  name : List Char
  word : List Char
  productions : Table Name (List Char)
deriving DecidableEq, Repr

inductive ShapeFault where
  | topLevel
  | word
  | name
  | productions
  /-- A key of the productions is no identifier. -/
  | productionName (key : Data)
  /-- A key of the productions is a number with too many digits to be shown. -/
  | vastProductionName
  /-- What a production stands for is no text. -/
  | production (key : List Char)
deriving Repr

namespace ShapeFault

def message (origin : List Char) : ShapeFault → List Char
  | topLevel => inSource "top level must be a mapping".toList
  | word => inSource "'word' must be a pattern string".toList
  | name => inSource "'name' must be a string".toList
  | productions => inSource "'productions' must be a mapping".toList
  | productionName key =>
    inSource ("production name '".toList ++ key.shown ++ "' is not a valid identifier".toList)
  | vastProductionName => vastNumber
  | production key => inSource ("production '".toList ++ key ++ "' must be a pattern string".toList)
where
  /-- A fault in the source. -/
  inSource (text : List Char) : List Char := origin ++ ": ".toList ++ text

def isReported : ShapeFault → Bool
  | vastProductionName => false
  | _ => true

end ShapeFault

namespace Language

def badName (key : Data) : ShapeFault :=
  if key.isVast then .vastProductionName else .productionName key

def production (e : Data × Data) : Except ShapeFault (Name × List Char) :=
  match e.1 with
  | .text key =>
    if isIdentifier key then
      match e.2 with
      | .text source => .ok (key, source)
      | _ => .error (.production key)
    else .error (badName e.1)
  | _ => .error (badName e.1)

/-- The entries of the value under `productions`; an empty value of any kind has none. -/
def productionEntries (d : Data) : Except ShapeFault (List (Data × Data)) :=
  if d.isEmpty then .ok []
  else
    match d with
    | .mapping es => .ok es
    | _ => .error .productions

def ofData (d : Data) : Except ShapeFault Language := do
  let .mapping es := d | throw .topLevel
  let some (.text word) := Data.entry? "word".toList es | throw .word
  let .text name := (Data.entry? "name".toList es).getD (.text []) | throw .name
  let entries ← productionEntries ((Data.entry? "productions".toList es).getD .null)
  return ⟨name, word, ← entries.mapM production⟩

def pattern (l : Language) : Except Refusal Pattern := Pattern.compile l.word

def setting (l : Language) (seed budget : Int) (ceiling : Option Nat) :
    Except RulebookError Setting :=
  Setting.build seed (l.productions.map fun e => (e.1, .text e.2)) budget ceiling

end Language

end Coinage
