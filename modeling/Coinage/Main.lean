import Coinage.CommandLine.MakeWords
import Coinage.CommandLine.ShowOutline
import Coinage.CommandLine.StandardHost

/-!
# The program

The program makes words; under the name `outline` it shows outlines instead.
-/

namespace Coinage

/-- The fault behind the number of an error about a path, which may come with a minus sign. -/
def faultOfCode (code : UInt32) : FileFault :=
  if code = 20 || code = -20 then .notADirectory
  else if code = 36 || code = -36 then .nameTooLong
  else .isADirectory

/-- The reason for which a file cannot be opened; errors of other kinds are raised again. -/
def faultOf (e : IO.Error) : IO FileFault :=
  match e with
  | .noFileOrDirectory _ _ _ => return .missing
  | .permissionDenied _ _ _ => return .denied
  | .inappropriateType _ code _ => return faultOfCode code
  | .invalidArgument _ code _ => return faultOfCode code
  | e => throw e

def opening {α : Type} (path : List Char) (action : IO α) : IO (Except OpenFault α) := do
  match standardHost.pathFault? path with
  | some f => return .error (.path f)
  | none =>
    try
      return .ok (← action)
    catch e => return .error (.file (← faultOf e))

def freshSeed : IO Int := do
  let bytes ← IO.getRandomBytes 8
  return (bytes.toList.foldl (fun n b => 256 * n + b.toNat) 0 % twoTo 63 : Nat)

def writeLine (medium : Medium) (write : String → IO Unit) (line : List Char) :
    ExceptT Trouble IO Unit :=
  match standardHost.unencodable? medium line with
  | some reason => throw (.unwritable reason)
  | none => liftM (write (String.ofList (line ++ ['\n'])))

def machine : System IO.FS.Handle (ExceptT Trouble IO) where
  read path := liftM do
    opening path do return (← IO.FS.readBinFile (String.ofList path)).toList
  print := writeLine .output fun line => IO.print line
  tell line := liftM (IO.eprintln (String.ofList line))
  openToAdd path := do
    match ← liftM (opening path (IO.FS.Handle.mk (String.ofList path) .append)) with
    | .ok file => return file
    | .error f => throw (.target path f)
  add file := writeLine .file file.putStr

def conclude {ε : Type} (ending : Ending ε) (reason : ε → List Char) : IO UInt32 := do
  match ending with
  | .broken e => IO.eprintln (String.ofList (reason e))
  | _ => pure ()
  return UInt32.ofNat ending.status

def writeDown {ε : Type} (o : Outcome ε) (reason : ε → List Char) : IO UInt32 := do
  IO.eprint (String.ofList o.messages)
  IO.print (String.ofList o.output)
  conclude o.ending reason

def runMakeWords (args : List (List Char)) : IO UInt32 := do
  match Request.ofArguments args with
  | .error d => writeDown (withoutRequest d) Trouble.message
  | .ok r =>
    match ← (r.carryOut standardHost machine (← freshSeed)).run with
    | .ok ending => conclude ending Trouble.message
    | .error e => conclude (.broken e) Trouble.message

def runShowOutline (args : List (List Char)) : IO UInt32 :=
  writeDown (showOutline args) fun e =>
    match e with
    | .pattern r => r.message
    | .selfTest => "selftest failed".toList

end Coinage

def main (args : List String) : IO UInt32 := do
  let args := args.map String.toList
  if (← IO.appPath).fileStem = some "outline" then Coinage.runShowOutline args
  else Coinage.runMakeWords args
