import Coinage.Number.Shortest
import Coinage.Text.Quoted

/-!
# Configuration data

The values that a configuration file is decoded to. Only texts, mappings and the question whether a
value counts as empty matter later on; of all other values it is enough to know how they are shown
in a message.
-/

namespace Coinage

inductive Data where
  | null
  | bool (b : Bool)
  | int (i : Int)
  | float (x : Binary64)
  | text (s : List Char)
  | bytes (bs : List UInt8)
  /-- A date, a time or both, in its written form. -/
  | moment (written : List Char)
  | list (items : List Data)
  | set (members : List Data)
  | mapping (entries : List (Data × Data))
deriving Repr

namespace Data

/-- The empty values: nothing, no, zero, and texts and collections without content. -/
def isEmpty : Data → Bool
  | null => true
  | bool b => !b
  | int i => i = 0
  | float x => x.isZero
  | text s => s.isEmpty
  | bytes bs => bs.isEmpty
  | moment _ => false
  | list items => items.isEmpty
  | set members => members.isEmpty
  | mapping entries => entries.isEmpty

def isVast : Data → Bool
  | int i => tenTo maxDigits ≤ i.natAbs
  | _ => false

/-- A value as it is shown when it stands as a key. Collections are no keys. -/
def shown : Data → List Char
  | null => "None".toList
  | bool b => if b then "True".toList else "False".toList
  | int i => signedDecimal i
  | float x => x.shortest
  | text s => s
  | bytes bs => 'b' :: quotedBytes bs
  | moment w => w
  | list _ => []
  | set _ => []
  | mapping _ => []

/-- Two keys are the same text. Keys of other kinds are kept apart, since none of them is looked
up. -/
def sameText : Data → Data → Bool
  | text a, text b => a = b
  | _, _ => false

/-- Enters a value under a key, in place of the one that the same text had. -/
def putEntry (k v : Data) : List (Data × Data) → List (Data × Data)
  | [] => [(k, v)]
  | (j, w) :: es => if sameText j k then (j, v) :: es else (j, w) :: putEntry k v es

def ofEntries (es : List (Data × Data)) : Data :=
  mapping (es.foldl (fun acc e => putEntry e.1 e.2 acc) [])

def entry? (key : List Char) : List (Data × Data) → Option Data
  | [] => none
  | (k, v) :: es => if sameText k (text key) then some v else entry? key es

end Data

end Coinage
