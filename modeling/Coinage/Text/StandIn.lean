import Coinage.Text.Decimal
import Coinage.Text.Quoted

/-!
# Stand-ins

The code points from D800 to DFFF belong to no character: they are halves of pairs of code units. A
text can be given with such halves all the same, and a character of the last plane, for private use,
stands in for each of them; texts that use it otherwise are not told apart from these. UTF-8 has no
bytes for a half.
-/

namespace Coinage

namespace StandIn

/-- How far a stand-in is from the code point that it stands for. -/
def offset : Nat := 0x100000

def ofHalf (n : Nat) : Char := Char.ofNat (n + offset)

def isStandIn (c : Char) : Bool := 0x10d800 ≤ c.toNat && c.toNat < 0x10e000

/-- Why there are no bytes in UTF-8 for a text, if a half is in it. The first halves that stand
together are told with their place. -/
def unencodable? (cs : List Char) : Option (List Char) :=
  let start := (cs.takeWhile (!isStandIn ·)).length
  match (cs.drop start).takeWhile isStandIn with
  | [] => none
  | [c] => some ("'utf-8' codec can't encode character '\\u".toList
      ++ Quoted.hex 4 (c.toNat - offset) ++ "' in position ".toList ++ decimal start
      ++ ": surrogates not allowed".toList)
  | halves => some ("'utf-8' codec can't encode characters in position ".toList
      ++ decimal start ++ '-' :: decimal (start + halves.length - 1)
      ++ ": surrogates not allowed".toList)

end StandIn

end Coinage
