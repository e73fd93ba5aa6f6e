import Coinage.Config.LanguageFile
import Coinage.Config.Toml.Document
import Coinage.Config.Yaml.Value

/-!
# Decoders

The decoders that the program uses for the formats of language files. The content of a file is a
text in UTF-8.
-/

namespace Coinage

def textOfBytes (bytes : List UInt8) : Except Undecodable (List Char) :=
  match String.fromUTF8? ⟨bytes.toArray⟩ with
  | some s => .ok s.toList
  | none => .error .notUtf8

def Undecodable.fault : Undecodable → DecodingFault
  | malformed => .malformed "(decoder)".toList
  | notUtf8 => .broken ⟨"UnicodeDecodeError".toList, "(decoder)".toList⟩
  | badValue f => .broken ⟨f.kind.toList, f.message⟩
  | tooDeep => .broken ⟨"RecursionError".toList, "maximum recursion depth exceeded".toList⟩

/-- The data that the content of a file writes down, if values may be nested as far as there is
room. -/
def decodeWithin (room : Nat) : Decoder
  | .yaml, bytes => (Yaml.decode room bytes).mapError Undecodable.fault
  | .toml, bytes => (textOfBytes bytes >>= Toml.decode room).mapError Undecodable.fault

end Coinage
