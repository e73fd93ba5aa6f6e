import Coinage.CommandLine.Misuse

/-!
# Outcomes of commands

What a command leaves behind: how it ends, and what it has written.
-/

namespace Coinage

inductive Ending (ε : Type) where
  | success
  /-- The arguments are wrong. -/
  | refused
  /-- The command fails and says so. -/
  | failure
  /-- The command breaks off for a reason that it does not report. -/
  | broken (cause : ε)
deriving DecidableEq, Repr

def Ending.status {ε : Type} : Ending ε → Nat
  | success => 0
  | refused => 2
  | failure => 2
  | broken _ => 1

structure Outcome (ε : Type) where
  ending : Ending ε
  output : List Char
  /-- What is written beside the output. -/
  messages : List Char

def lines (ls : List (List Char)) : List Char := ls.flatMap fun l => l ++ ['\n']

@[simp] theorem lines_nil : lines [] = [] := rfl

@[simp] theorem lines_cons (l : List Char) (ls : List (List Char)) :
    lines (l :: ls) = l ++ '\n' :: lines ls := by
  simp [lines]

@[simp] theorem lines_append (ls ms : List (List Char)) : lines (ls ++ ms) = lines ls ++ lines ms :=
  List.flatMap_append

/-- How a command with the given name and help ends if it does not run. -/
def Declined.outcome {ε : Type} (program help : List Char) : Declined → Outcome ε
  | .help => ⟨.success, help, []⟩
  | .misused m => ⟨.refused, [], program ++ ": error: ".toList ++ m.message ++ ['\n']⟩

end Coinage
