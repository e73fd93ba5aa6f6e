import Coinage.CommandLine.Arguments
import Coinage.Seed
import Coinage.Setting

/-!
# Requests for words

What a user asks for in the arguments of the command that makes words. An option that is given
without a value still counts as given; what becomes of it is found out where its value is needed.
-/

namespace Coinage

structure Request where
  /-- The path of the file with the language. -/
  config : List Char
  /-- The number of words. -/
  count : Given Int
  seed : Given Seed
  /-- The path of the file that the words are added to. -/
  target : Option (List Char)
  /-- The pattern of the words, if it is not that of the language. -/
  pattern : Option (Given (List Char))
  /-- The budget of levels. -/
  budget : Given Int
  /-- The outline of the pattern is wanted, and no words. -/
  outline : Bool
deriving DecidableEq, Repr

namespace Request

inductive Key where
  | help
  | count
  | seed
  | target
  | pattern
  | budget
  | outline
deriving DecidableEq, Repr

def switches : List (Switch Key) := [
  ⟨.help, ["-h".toList, "--help".toList], false⟩,
  ⟨.count, ["--count".toList, "-c".toList], true⟩,
  ⟨.seed, ["--seed".toList, "-s".toList], true⟩,
  ⟨.target, ["--output".toList, "-o".toList], true⟩,
  ⟨.pattern, ["--pattern".toList, "-p".toList], true⟩,
  ⟨.budget, ["--depth".toList], true⟩,
  ⟨.outline, ["--tree".toList], false⟩]

structure Settings where
  count : Given Int
  seed : Option (Given (List Char))
  target : Option (List Char)
  pattern : Option (Given (List Char))
  budget : Given Int
  outline : Bool
deriving DecidableEq, Repr

def defaultCount : Int := 10

def Settings.start : Settings :=
  ⟨.value defaultCount, none, none, none, .value defaultBudget, false⟩

def number (s : Switch Key) (kind : String) : Given (List Char) → Except Declined (Given Int)
  | .blank => .ok .blank
  | .value value =>
    match readInteger value with
    | .ok n => .ok (.value n)
    | .error _ => .error (.misused (.noNumber s.names kind.toList value))

def countOf (s : Switch Key) (given : Given (List Char)) : Except Declined (Given Int) := do
  match ← number s "_count" given with
  | .value n => if n < 0 then throw (.misused (.negativeCount s.names)) else return .value n
  | .blank => return .blank

/-- The path that is given for a file; a blank is the same as no file. -/
def targetOf : Given (List Char) → Option (List Char)
  | .value path => some path
  | .blank => none

def Settings.enter (s : Switch Key) (given : Given (List Char)) (t : Settings) :
    Except Declined Settings :=
  match s.key with
  | .help => .error .help
  | .count => do return { t with count := ← countOf s given }
  | .seed => .ok { t with seed := some given }
  | .target => .ok { t with target := targetOf given }
  | .pattern => .ok { t with pattern := some given }
  | .budget => do return { t with budget := ← number s "int" given }
  | .outline => .ok { t with outline := true }

/-- The seed that is asked for; a fresh one unless there is a wish. -/
def seedOf (wish : Option (Given (List Char))) : Except Declined (Given Seed) :=
  match wish with
  | none => .ok (.value .fresh)
  | some .blank => .ok .blank
  | some (.value value) =>
    match Seed.read value with
    | .ok s => .ok (.value s)
    | .error _ => .error (.misused (.badSeed value))

def ofArguments (args : List (List Char)) : Except Declined Request := do
  let (t, main) ← readArguments switches (some "config".toList) Settings.enter .start args
  let seed ← seedOf t.seed
  return ⟨main.getD [], t.count, seed, t.target, t.pattern, t.budget, t.outline⟩

end Request

end Coinage
