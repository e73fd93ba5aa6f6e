import Coinage.Config.Path
import Coinage.Table
import Coinage.Text.Blank
import Coinage.Text.Quoted

/-!
# Files

A directory with everything below it, as a table from places to files and directories. Paths lead
from this directory downwards or, over two points or from the root, to places outside of it. Besides
what the table lists there may be directories at any places, which stay there; the directory itself
is one of them, if it is there.
-/

namespace Coinage

inductive Entry where
  | file (content : List UInt8)
  | directory
deriving DecidableEq, Repr

/-- A place, by the parts of the way to it from the directory. Places outside begin with two points
for every step upwards, or with a slash. -/
abbrev FilePlace := List (List Char)

structure Files where
  /-- The places of directories that are not listed. -/
  isDirectory : FilePlace → Bool
  listed : Table FilePlace Entry

inductive FileFault where
  | missing
  | notADirectory
  | isADirectory
  | denied
  /-- The path, or a part of it, is too long. -/
  | nameTooLong
deriving DecidableEq, Repr

def FileFault.message (path : List Char) : FileFault → List Char
  | missing => "[Errno 2] No such file or directory: ".toList ++ quoted path
  | notADirectory => "[Errno 20] Not a directory: ".toList ++ quoted path
  | isADirectory => "[Errno 21] Is a directory: ".toList ++ quoted path
  | denied => "[Errno 13] Permission denied: ".toList ++ quoted path
  | nameTooLong => "[Errno 36] File name too long: ".toList ++ quoted path

inductive PathFault where
  /-- No path contains the character zero. -/
  | zero
  | unencodable (reason : List Char)
deriving DecidableEq, Repr

def PathFault.message : PathFault → List Char
  | zero => "embedded null byte".toList
  | unencodable reason => reason

inductive OpenFault where
  | path (f : PathFault)
  | file (f : FileFault)
deriving DecidableEq, Repr

def OpenFault.message (path : List Char) : OpenFault → List Char
  | .path f => f.message
  | .file f => f.message path

def OpenFault.isReported : OpenFault → Bool
  | .path _ => false
  | .file _ => true

namespace FilePlace

def up : List Char := "..".toList

def root : FilePlace := [['/']]

def parent (place : FilePlace) : FilePlace :=
  if place = root then root
  else if place.all (· = up) then place ++ [up]
  else place.dropLast

end FilePlace

namespace Files

def entry? (fs : Files) (place : FilePlace) : Option Entry :=
  if fs.isDirectory place then some .directory else fs.listed.get? place

def put (fs : Files) (place : FilePlace) (e : Entry) : Files :=
  { fs with listed := fs.listed.put place e }

/-- Follows the parts of a path from a place on. Every part but the last has to lead to a
directory. -/
def follow (fs : Files) : (place : FilePlace) → List (List Char) → Except FileFault FilePlace
  | place, [] => .ok place
  | place, p :: ps =>
    match fs.entry? place with
    | none => .error .missing
    | some (.file _) => .error .notADirectory
    | some .directory =>
      if p = [] || p = ['.'] then follow fs place ps
      else if p = FilePlace.up then follow fs place.parent ps
      else if Path.isOverlongPart p then .error .nameTooLong
      else follow fs (place ++ [p]) ps

def placeOf (fs : Files) (path : List Char) (parts : List (List Char)) :
    Except FileFault FilePlace :=
  if Path.isOverlong path then .error .nameTooLong
  else if path = [] then .error .missing
  else fs.follow (if path.head? = some '/' then FilePlace.root else []) parts

def read (fs : Files) (path : List Char) : Except FileFault (List UInt8) := do
  match fs.entry? (← fs.placeOf path (Path.split path)) with
  | none => throw .missing
  | some .directory => throw .isADirectory
  | some (.file content) => return content

/-- The place of a file that is to be written. A path with a slash at its end is one of a
directory, whatever is found there, if only the way to it is one. -/
def targetOf (fs : Files) (path : List Char) : Except FileFault FilePlace := do
  if path.getLast? = some '/' then
    let parts := Path.split (trimRight (· == '/') path)
    let way := if parts.getLast? = some FilePlace.up then parts else parts.dropLast
    let _ ← fs.placeOf path (way ++ [['.']])
    throw .isADirectory
  else fs.placeOf path (Path.split path)

/-- Opens the file at a path to add to it. The file is made if it is missing. -/
def openToAdd (fs : Files) (path : List Char) : Except FileFault (FilePlace × Files) := do
  let place ← fs.targetOf path
  match fs.entry? place with
  | none => return (place, fs.put place (.file []))
  | some .directory => throw .isADirectory
  | some (.file _) => return (place, fs)

/-- Adds to the end of the file at a place; where there is none, nothing is done. -/
def add (fs : Files) (place : FilePlace) (content : List UInt8) : Files :=
  match fs.entry? place with
  | some (.file old) => fs.put place (.file (old ++ content))
  | _ => fs

end Files

end Coinage
