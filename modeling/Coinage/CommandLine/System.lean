import Coinage.CommandLine.Host
import Coinage.CommandLine.Trouble

/-!
# Systems

What a command can do, one step at a time: read a file, print a line, tell a line beside the output,
open a file to add to it, and add a line. A step either has its effect or fails without one; what
was done before it stays done. Steps can be taken on a world that is given as a value, of files and
of what has been printed and told.
-/

namespace Coinage

/-- The steps of a command; `η` is the type of open files. -/
structure System (η : Type) (m : Type → Type) where
  read : (path : List Char) → m (Except OpenFault (List UInt8))
  print : (line : List Char) → m Unit
  tell : (line : List Char) → m Unit
  openToAdd : (path : List Char) → m η
  add : (file : η) → (line : List Char) → m Unit

structure World where
  output : List Char
  /-- What is told beside the output. -/
  messages : List Char
  files : Files

def bytesOfText (cs : List Char) : List UInt8 := (String.ofList cs).toUTF8.data.toList

@[simp] theorem bytesOfText_nil : bytesOfText [] = [] := rfl

@[simp] theorem bytesOfText_append (cs ds : List Char) :
    bytesOfText (cs ++ ds) = bytesOfText cs ++ bytesOfText ds := by
  simp [bytesOfText]

namespace World

def print (line : List Char) (w : World) : World := { w with output := w.output ++ line ++ ['\n'] }

def tell (line : List Char) (w : World) : World :=
  { w with messages := w.messages ++ line ++ ['\n'] }

/-- A line is added in one go, with the line feed behind it. -/
def add (place : FilePlace) (line : List Char) (w : World) : World :=
  { w with files := w.files.add place (bytesOfText (line ++ ['\n'])) }

end World

abbrev Job := EStateM Trouble World

namespace Host

def write (host : Host) (medium : Medium) (put : List Char → World → World) (line : List Char) :
    Job Unit := fun w =>
  match host.unencodable? medium line with
  | some reason => .error (.unwritable reason) w
  | none => .ok () (put line w)

def system (host : Host) : System FilePlace Job where
  read path := fun w => .ok (host.opened path (w.files.read path)) w
  print := host.write .output World.print
  tell line := fun w => .ok () (w.tell line)
  openToAdd path := fun w =>
    match host.opened path (w.files.openToAdd path) with
    | .ok (place, fs) => .ok place { w with files := fs }
    | .error f => .error (.target path f) w
  add place := host.write .file (World.add place)

end Host

end Coinage
