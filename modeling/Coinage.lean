import Coinage.Main
import Coinage.Proofs.Chance.Spread
import Coinage.Proofs.CommandLine.Replay
import Coinage.Proofs.CommandLine.Reports
import Coinage.Proofs.Config.Names
import Coinage.Proofs.Generation.Budget
import Coinage.Proofs.Generation.ByName
import Coinage.Proofs.Generation.Completeness
import Coinage.Proofs.Generation.Drawless
import Coinage.Proofs.Generation.Escaped
import Coinage.Proofs.Generation.Inlined
import Coinage.Proofs.Generation.Juxtaposed
import Coinage.Proofs.Generation.Length
import Coinage.Proofs.Generation.Levels
import Coinage.Proofs.Generation.Relinked
import Coinage.Proofs.Generation.Safety
import Coinage.Proofs.Generation.Session
import Coinage.Proofs.Generation.Soundness
import Coinage.Proofs.Generation.Unrolled
import Coinage.Proofs.Pattern.Position
import Coinage.Proofs.Pattern.Refusal
import Coinage.Proofs.Pattern.Respaced
import Coinage.Proofs.Pattern.Walk
import Coinage.Proofs.Rulebook.DepthFirst
import Coinage.Proofs.Tree.Alike
import Coinage.Proofs.Tree.Outline
