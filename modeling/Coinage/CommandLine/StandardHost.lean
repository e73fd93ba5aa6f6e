import Coinage.CommandLine.Host
import Coinage.Config.Decoders
import Coinage.Text.StandIn

/-!
# The standard host

The host that the program runs on. Nothing else in the library depends on what it is like.
-/

namespace Coinage

/-- A stack of a thousand frames, of which a level of a run takes three and a level of a collection
two or three; and UTF-8 for all that is written. Paths are given by their bytes, so that there is
nothing in them that has none. -/
def standardHost : Host where
  decode := decodeWithin 985
  ceiling := some 325
  unencodable? medium cs := if medium = .path then none else StandIn.unencodable? cs

end Coinage
