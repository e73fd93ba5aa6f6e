import Coinage.CommandLine.Arguments
import Coinage.CommandLine.Outcome
import Coinage.Pattern.Compile
import Coinage.Tree.Outline

/-!
# Outlines on request

The command that shows the outline of a pattern, and can test itself on some patterns.
-/

namespace Coinage

namespace ShowOutline

inductive Key where
  | help
  | selfTest
deriving DecidableEq, Repr

def switches : List (Switch Key) := [
  ⟨.help, ["-h".toList, "--help".toList], false⟩,
  ⟨.selfTest, ["--selftest".toList], false⟩]

/-- Enters an option; all that can be set is whether the command tests itself. -/
def enter (s : Switch Key) (_ : Given (List Char)) (_ : Bool) : Except Declined Bool :=
  match s.key with
  | .help => .error .help
  | .selfTest => .ok true

def help : List Char := lines [
  "usage: parser.py [-h] [--selftest] [pattern]".toList,
  "".toList,
  "Pattern compiler: print the parsed tree.".toList,
  "".toList,
  "  pattern     pattern source text".toList,
  "  -h, --help  show this text and exit".toList,
  "  --selftest  run the self-test and exit".toList]

def samples : List (String × List String) := [
  ("", ["SEQ"]),
  ("a{2,2}", ["SEQ", "  PARTICLE 'a' {2,2}"]),
  ("a ?", ["SEQ", "  PARTICLE 'a'", "  PARTICLE '?'"]),
  ("\\$x", ["SEQ", "  PARTICLE '$'", "  PARTICLE 'x'"]),
  ("[ab](c)$d",
    ["SEQ", "  ALT", "    PARTICLE 'a'", "    PARTICLE 'b'", "  SEQ", "    PARTICLE 'c'",
      "  PRODUCTION d"])]

def badSamples : List String := [
  "a\x7b2,", "a\x7b2;3\x7d", "[ab", "$", "$1", "\\", "[]", "a\x7b3,1\x7d"]

def selfTest : Bool :=
  (samples.all fun s => match Pattern.compile s.1.toList with
    | .ok p => p.root.outline 0 = s.2.map String.toList
    | .error _ => false)
  && badSamples.all fun s => !(Pattern.compile s.toList).isOk

end ShowOutline

inductive OutlineTrouble where
  | pattern (r : Refusal)
  | selfTest
deriving DecidableEq, Repr

def showOutline (args : List (List Char)) : Outcome OutlineTrouble :=
  match readArguments ShowOutline.switches none ShowOutline.enter false args with
  | .error d => d.outcome "parser.py".toList ShowOutline.help
  | .ok (true, _) =>
    if ShowOutline.selfTest then ⟨.success, "selftest: OK\n".toList, []⟩
    else ⟨.broken .selfTest, [], []⟩
  | .ok (false, none) =>
    Declined.outcome "parser.py".toList ShowOutline.help (.misused .patternMissing)
  | .ok (false, some source) =>
    match Pattern.compile source with
    | .ok p => ⟨.success, lines (p.root.outline 0), []⟩
    | .error r => ⟨.broken (.pattern r), [], []⟩

end Coinage
