import Coinage.Text.Quoted

/-!
# Misused commands

What is wrong with the arguments of a command, and how it is told.
-/

namespace Coinage

/-- What is wrong with the arguments of a command. Options are given by all their names. -/
inductive Misuse where
  /-- An argument may be short for several options. -/
  | ambiguous (argument : List Char) (candidates : List (List Char))
  /-- An option lacks its value. -/
  | valueMissing (names : List (List Char))
  /-- An option that takes no value has got one. -/
  | valueUnused (names : List (List Char)) (value : List Char)
  /-- The value of an option is no number of its kind. -/
  | noNumber (names : List (List Char)) (kind value : List Char)
  /-- The value of an option is a number below zero. -/
  | negativeCount (names : List (List Char))
  /-- The argument that has no option in front of it is missing. -/
  | required (name : List Char)
  /-- Arguments are left over. -/
  | unrecognized (arguments : List (List Char))
  | badSeed (value : List Char)
  | patternMissing
deriving DecidableEq, Repr

namespace Misuse

def ofOption (names : List (List Char)) (fault : List Char) : List Char :=
  "argument ".toList ++ List.intercalate ['/'] names ++ ": ".toList ++ fault

def message : Misuse → List Char
  | ambiguous argument candidates =>
    "ambiguous option: ".toList ++ argument ++ " could match ".toList
      ++ List.intercalate ", ".toList candidates
  | valueMissing names => ofOption names "expected one argument".toList
  | valueUnused names value =>
    ofOption names ("ignored explicit argument ".toList ++ quoted value)
  | noNumber names kind value =>
    ofOption names ("invalid ".toList ++ kind ++ " value: ".toList ++ quoted value)
  | negativeCount names => ofOption names "count must be >= 0".toList
  | required name => "the following arguments are required: ".toList ++ name
  | unrecognized arguments =>
    "unrecognized arguments: ".toList ++ List.intercalate [' '] arguments
  | badSeed value => "invalid seed: ".toList ++ quoted value
  | patternMissing => "pattern is required unless --selftest is given".toList

end Misuse

inductive Declined where
  /-- The user asks how the command is used. -/
  | help
  | misused (m : Misuse)
deriving DecidableEq, Repr

end Coinage
