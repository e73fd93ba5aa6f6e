import Coinage.Config.LanguageFile

/-!
# Hosts

What a command finds in place where it runs, and takes as it is: the decoders of the formats, how
deep a run may go, and which texts can be encoded. Texts are encoded when they are printed, when
they are added to a file, and when they name a file. They may hold what the encoding has nothing
for, such as the halves of a pair of code units that stand alone.
-/

namespace Coinage

inductive Medium where
  | output
  | file
  | path
deriving DecidableEq, Repr

structure Host where
  decode : Decoder
  /-- How many levels a run may have in any case; none if there is no such limit. -/
  ceiling : Option Nat
  /-- Why a text cannot be encoded, if it cannot. -/
  unencodable? : Medium → List Char → Option (List Char)

namespace Host

/-- Why a text is no path, if it is none. It is encoded before it is looked at. -/
def pathFault? (host : Host) (path : List Char) : Option PathFault :=
  match host.unencodable? .path path with
  | some reason => some (.unencodable reason)
  | none => if path.contains '\x00' then some .zero else none

/-- What comes of opening a file at a text, given what comes of it at a path. -/
def opened {α : Type} (host : Host) (path : List Char) (result : Except FileFault α) :
    Except OpenFault α :=
  match host.pathFault? path with
  | some f => .error (.path f)
  | none => result.mapError .file

end Host

end Coinage
