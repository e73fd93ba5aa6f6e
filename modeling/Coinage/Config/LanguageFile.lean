import Coinage.Config.Files
import Coinage.Config.Language

/-!
# Language files

A language is kept in a file whose suffix tells the format of its content. Nothing is known here
about the decoders of the formats but what can become of their work: they give data, tell what is
wrong with the content, or break off.
-/

namespace Coinage

inductive Format where
  | yaml
  | toml
deriving DecidableEq, Repr

/-- The format that a suffix tells, in letters of either case. -/
def Format.ofSuffix? (suffix : List Char) : Option Format :=
  let s := suffix.map Char.toLower
  if s = ".yml".toList || s = ".yaml".toList then some .yaml
  else if s = ".toml".toList then some .toml
  else none

/-- What a decoder breaks off with: the kind of an error, by its name, and its wording. -/
structure Breakdown where
  kind : List Char
  text : List Char
deriving DecidableEq, Repr

inductive DecodingFault where
  /-- The content breaks the rules of its format, in the words of the decoder. -/
  | malformed (text : List Char)
  | broken (b : Breakdown)
deriving DecidableEq, Repr

/-- The data that the content of a file writes down in a format. -/
abbrev Decoder := Format → List UInt8 → Except DecodingFault Data

inductive LoadError where
  /-- The suffix tells no format. -/
  | unknownFormat (suffix : List Char)
  /-- The file at the path cannot be read. -/
  | unreadable (path : List Char) (fault : OpenFault)
  /-- The content from the given source breaks the rules of its format. -/
  | malformed (origin text : List Char)
  | broken (b : Breakdown)
  /-- The data from the given source have the wrong shape. -/
  | misshapen (origin : List Char) (fault : ShapeFault)
deriving Repr

namespace LoadError

def message : LoadError → List Char
  | unknownFormat suffix =>
    "unsupported config format '".toList ++ suffix
      ++ "' (expected .yml, .yaml or .toml)".toList
  | unreadable path fault => fault.message path
  | malformed origin text => origin ++ ": ".toList ++ text
  | broken b => b.text
  | misshapen origin fault => fault.message origin

/-- Commands report the error, unless the decoder has broken off or there is no such path or
value. -/
def isReported : LoadError → Bool
  | unknownFormat _ => true
  | unreadable _ fault => fault.isReported
  | malformed _ _ => true
  | broken _ => false
  | misshapen _ fault => fault.isReported

end LoadError

/-- The data in a file at a path, of which the content is given. -/
def Data.ofFile (decode : Decoder) (path : List Char) (content : Except OpenFault (List UInt8)) :
    Except LoadError Data :=
  match Format.ofSuffix? (Path.suffix path), content with
  | none, _ => .error (.unknownFormat (Path.suffix path))
  | some _, .error fault => .error (.unreadable (Path.normal path) fault)
  | some format, .ok content =>
    match decode format content with
    | .ok d => .ok d
    | .error (.malformed told) => .error (.malformed (Path.normal path) told)
    | .error (.broken b) => .error (.broken b)

/-- The language in a file at a path, of which the content is given. -/
def Language.ofFile (decode : Decoder) (path : List Char)
    (content : Except OpenFault (List UInt8)) : Except LoadError Language := do
  match Language.ofData (← Data.ofFile decode path content) with
  | .ok l => return l
  | .error fault => throw (.misshapen (Path.normal path) fault)

end Coinage
