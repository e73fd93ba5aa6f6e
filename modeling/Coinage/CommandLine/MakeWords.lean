import Coinage.Chance.Twister
import Coinage.CommandLine.Outcome
import Coinage.CommandLine.Request
import Coinage.CommandLine.System
import Coinage.Tree.Outline

/-!
# Making words on request

The command that reads a language from a file and makes words of it. Until all words are made
nothing but messages is written. Then the words are printed, or added to a file, one after the
other.
-/

namespace Coinage

namespace Request

/-- The language, the pattern that a request is about and how it is shown, given the content of the
language file. -/
def subject (r : Request) (decode : Decoder) (content : Except OpenFault (List UInt8)) :
    Except Trouble (Language × List Char × Pattern) := do
  let l ← match Language.ofFile decode r.config content with
    | .ok l => pure l
    | .error e => throw (.language e)
  let (word, source) := match r.pattern with
    | none => (l.word, l.word)
    | some given => (given.shown id, given.text)
  match Pattern.compile source with
  | .ok p => return (l, word, p)
  | .error e => throw (.pattern e)

def announcement (r : Request) (l : Language) (word : List Char) (seed : Int) :
    List (List Char) := [
  "Generating ".toList ++ r.count.shown signedDecimal ++ " words of language `".toList ++ l.name
    ++ "` using pattern `".toList ++ word ++ "`".toList,
  "seed: ".toList ++ signedDecimal seed]

def words (r : Request) (s : Setting) (p : Pattern) : Except Trouble (List (List Char)) :=
  match r.count with
  | .blank => .error .blankCount
  | .value n =>
    match s.generateBatch p.root n (Run.start (Twister.ofSeed s.seed)) with
    | .ok ws _ => .ok ws
    | .error e _ => .error (.generation e.failure)

/-- The setting of a request. That the budget is blank shows last. -/
def setting (r : Request) (l : Language) (seed : Int) (ceiling : Option Nat) :
    Except Trouble Setting :=
  let budget := match r.budget with
    | .value n => n
    | .blank => defaultBudget
  match l.setting seed budget ceiling, r.budget with
  | .error e, _ => .error (.rules e)
  | .ok _, .blank => .error .blankNumber
  | .ok s, .value _ => .ok s

/-- The lines that are told, and those that are wanted. A fresh seed is `fresh`. -/
def answer (r : Request) (host : Host) (fresh : Int) (content : Except OpenFault (List UInt8)) :
    List (List Char) × Except Trouble (List (List Char)) :=
  match r.seed with
  | .blank => ([], .error .blankNumber)
  | .value seed =>
    match r.subject host.decode content with
    | .error e => ([], .error e)
    | .ok (l, word, p) =>
      if r.outline then ([], .ok (p.root.outline 0))
      else
        let seed := seed.value fresh
        match r.setting l seed host.ceiling with
        | .error e => ([], .error e)
        | .ok s => (r.announcement l word seed, r.words s p)

/-- The path of the file that words are added to, unless they are printed. -/
def target? (r : Request) : Option (List Char) := r.target.filter (· ≠ [])

section Effects

variable {η : Type} {m : Type → Type} [Monad m] [MonadExceptOf Trouble m]

/-- Puts the lines of a request where they are wanted. The result is what is still to be printed:
the words, if they are wanted there. -/
def deliver (r : Request) (sys : System η m) (ls : List (List Char)) : m (List (List Char)) := do
  if r.outline then
    ls.forM sys.print
    return []
  else
    match r.target? with
    | none => return ls
    | some path =>
      let file ← sys.openToAdd path
      ls.forM (sys.add file)
      return []

def guarded (r : Request) (host : Host) (sys : System η m) (fresh : Int) :
    m (List (List Char)) := do
  let content ← sys.read (Path.normal r.config)
  let (told, result) := r.answer host fresh content
  told.forM sys.tell
  let ls ← MonadExcept.ofExcept result
  r.deliver sys ls

def report (sys : System η m) (e : Trouble) : m Unit :=
  if e.isReported then sys.tell ("wordgen error: ".toList ++ e.message) else throw e

def carryOut (r : Request) (host : Host) (sys : System η m) (fresh : Int) : m (Ending Trouble) := do
  let rest ← tryCatch (some <$> r.guarded host sys fresh) fun e => do
    report sys e
    return none
  match rest with
  | none => return .failure
  | some ls =>
    ls.forM sys.print
    return .success

end Effects

def leaves : EStateM.Result Trouble World (Ending Trouble) → Outcome Trouble × Files
  | .ok ending w => (⟨ending, w.output, w.messages⟩, w.files)
  | .error e w => (⟨.broken e, w.output, w.messages⟩, w.files)

def run (r : Request) (host : Host) (fresh : Int) (fs : Files) : Outcome Trouble × Files :=
  leaves (r.carryOut host host.system fresh ⟨[], [], fs⟩)

end Request

def makeWordsHelp : List Char := lines [
  "usage: wordgen [options] config".toList,
  "".toList,
  "Generate words of a constructed language from a pattern config.".toList,
  "".toList,
  "  config                 language config (.yml, .yaml or .toml)".toList,
  "  -h, --help             show this text and exit".toList,
  "  --count, -c COUNT      number of words (default: 10)".toList,
  "  --seed, -s SEED        random seed (default: a fresh one)".toList,
  "  --output, -o FILE      append words to FILE".toList,
  "  --pattern, -p PATTERN  generate from this pattern instead of the config's word".toList,
  "  --depth DEPTH          maximum expansion depth (default: 200)".toList,
  "  --tree                 print the compiled word pattern and exit".toList]

def withoutRequest (d : Declined) : Outcome Trouble := d.outcome "wordgen".toList makeWordsHelp

def makeWords (host : Host) (fresh : Int) (fs : Files) (args : List (List Char)) :
    Outcome Trouble × Files :=
  match Request.ofArguments args with
  | .error d => (withoutRequest d, fs)
  | .ok r => r.run host fresh fs

end Coinage
