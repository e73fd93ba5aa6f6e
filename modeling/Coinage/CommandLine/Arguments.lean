import Coinage.CommandLine.Misuse
import Coinage.Text.Digit

/-!
# Arguments

How the arguments of a command are read. An option is named by a word behind one or two hyphens; its
value is the next argument, or is attached to the name. A name with two hyphens may be cut short as
long as it belongs to one option only. Options of one letter may share a hyphen. Besides its options
a command takes one argument. Two hyphens alone are a divider, behind which no argument names an
option; attached to a name they leave the option blank.
-/

namespace Coinage

structure Switch (κ : Type) where
  key : κ
  names : List (List Char)
  takesValue : Bool

/-- What is given for an option: a value, or nothing behind its name. -/
inductive Given (α : Type) where
  | value (a : α)
  | blank
deriving DecidableEq, Repr

/-- What is given is shown like a value, and a blank like an empty list. -/
def Given.shown {α : Type} (f : α → List Char) : Given α → List Char
  | value a => f a
  | blank => "[]".toList

def Given.text : Given (List Char) → List Char
  | value cs => cs
  | blank => []

inductive Argument (κ : Type) where
  /-- An option, named by one letter behind one hyphen if it is `short`. -/
  | option (switch : Switch κ) (short : Bool) (attached : Option (List Char))
  /-- The name of no option. -/
  | unknown (written : List Char)
  | text (written : List Char)
  /-- Two hyphens alone. -/
  | divider

namespace Argument

variable {κ : Type}

def hyphens : List Char := "--".toList

def named? (ss : List (Switch κ)) (name : List Char) : Option (Switch κ) :=
  ss.find? fun s => s.names.contains name

def splitValue (arg : List Char) : List Char × Option (List Char) :=
  match arg.dropWhile (· != '=') with
  | [] => (arg, none)
  | _ :: value => (arg.takeWhile (· != '='), some value)

def completions (ss : List (Switch κ)) (start : List Char) : List (List Char × Switch κ) :=
  ss.flatMap fun s => (s.names.filter start.isPrefixOf).map fun n => (n, s)

def isNegativeNumber (arg : List Char) : Bool :=
  match arg with
  | '-' :: r =>
    let r := if r.getLast? = some '\n' then r.dropLast else r
    match r.dropWhile isDigit with
    | [] => r ≠ []
    | '.' :: part => part ≠ [] && part.all isDigit
    | _ => false
  | _ => false

/-- An argument with a hyphen in front that names no option is a text if it looks like a number
below zero or has a space in it. -/
def unnamed (arg : List Char) : Argument κ :=
  if isNegativeNumber arg || arg.contains ' ' then .text arg else .unknown arg

/-- An argument with two hyphens in front that is not the full name of an option. -/
def ofShortened (ss : List (Switch κ)) (arg : List Char) : Except Misuse (Argument κ) :=
  let (start, value) := splitValue arg
  match completions ss start with
  | [] => .ok (unnamed arg)
  | [(_, s)] => .ok (.option s false value)
  | cs => .error (.ambiguous arg (cs.map Prod.fst))

def ofText (ss : List (Switch κ)) (arg : List Char) : Except Misuse (Argument κ) :=
  match arg with
  | '-' :: c :: attached =>
    match named? ss arg, named? ss (splitValue arg).1 with
    | some s, _ => .ok (.option s (c != '-') none)
    | none, some s => .ok (.option s (c != '-') (splitValue arg).2)
    | none, none =>
      if c = '-' then ofShortened ss arg
      else
        match named? ss ['-', c] with
        | some s => .ok (.option s true (some attached))
        | none => .ok (unnamed arg)
  | _ => .ok (.text arg)

def ofTexts (ss : List (Switch κ)) : List (List Char) → Except Misuse (List (Argument κ))
  | [] => .ok []
  | arg :: args =>
    if arg = hyphens then .ok (.divider :: args.map .text)
    else do
      let a ← ofText ss arg
      return a :: (← ofTexts ss args)

end Argument

/-- Options that share a hyphen: some without a value, and the last one with what is attached to
it. -/
structure Bundle (κ : Type) where
  flags : List (Switch κ)
  last : Switch κ
  attached : Option (List Char)

namespace Bundle

variable {κ : Type}

/-- The bundle of an option and of what is attached to its name: its value, or further letters. -/
def ofAttached (ss : List (Switch κ)) (s : Switch κ) :
    (attached : List Char) → Except Misuse (Bundle κ)
  | [] => if s.takesValue then .ok ⟨[], s, some []⟩ else .error (.valueUnused s.names [])
  | c :: cs =>
    if s.takesValue then .ok ⟨[], s, some (c :: cs)⟩
    else
      match Argument.named? ss ['-', c], cs with
      | none, _ => .error (.valueUnused s.names (c :: cs))
      | some t, [] => .ok ⟨[s], t, none⟩
      | some t, d :: ds => do
        let b ← ofAttached ss t (d :: ds)
        return { b with flags := s :: b.flags }

/-- The bundle that an option begins. Only behind one hyphen there can be further letters. -/
def ofOption (ss : List (Switch κ)) (s : Switch κ) (short : Bool) :
    (attached : Option (List Char)) → Except Misuse (Bundle κ)
  | none => .ok ⟨[], s, none⟩
  | some value =>
    if short then ofAttached ss s value
    else if s.takesValue then .ok ⟨[], s, some value⟩
    else .error (.valueUnused s.names value)

end Bundle

def Given.ofAttached (value : List Char) : Given (List Char) :=
  if value = Argument.hyphens then .blank else .value value

structure Intake (σ : Type) where
  settings : σ
  main : Option (List Char)
  /-- The arguments that are left over. -/
  extra : List (List Char)

namespace Intake

variable {κ σ : Type}

def leave (arg : List Char) (t : Intake σ) : Intake σ := { t with extra := t.extra ++ [arg] }

/-- Enters the options of a bundle in their order, and what is given for the last one. -/
def enter (set : Switch κ → Given (List Char) → σ → Except Declined σ) (b : Bundle κ)
    (g : Given (List Char)) (t : Intake σ) : Except Declined (Intake σ) := do
  let settings ← b.flags.foldlM (fun t s => set s .blank t) t.settings
  return { t with settings := ← set b.last g settings }

/-- Reads arguments from left to right; `set` enters what is given for an option. A divider beside
the main argument is no argument of its own, and neither is one at the end if the main argument may
be left out. -/
def read (ss : List (Switch κ)) (optional : Bool)
    (set : Switch κ → Given (List Char) → σ → Except Declined σ) :
    List (Argument κ) → Intake σ → Except Declined (Intake σ)
  | [], t => .ok t
  | .unknown arg :: as, t => read ss optional set as (t.leave arg)
  | .option s short attached :: as, t =>
    match Bundle.ofOption ss s short attached with
    | .error m => .error (.misused m)
    | .ok b =>
      match b.attached, b.last.takesValue, as with
      | some value, _, as => do
        read ss optional set as (← t.enter set b (.ofAttached value))
      | none, true, .text value :: as => do
        read ss optional set as (← t.enter set b (.value value))
      | none, true, _ => .error (.misused (.valueMissing b.last.names))
      | none, false, as => do read ss optional set as (← t.enter set b .blank)
  | .text arg :: as, t =>
    match t.main with
    | some _ => read ss optional set as (t.leave arg)
    | none =>
      let t := { t with main := some arg }
      match as with
      | .divider :: as => read ss optional set as t
      | as => read ss optional set as t
  | .divider :: as, t =>
    match t.main, as with
    | none, .text arg :: as => read ss optional set as { t with main := some arg }
    | none, [] => .ok (if optional then t else t.leave Argument.hyphens)
    | _, as => read ss optional set as (t.leave Argument.hyphens)

end Intake

/-- The settings of a command and its main argument, read from all arguments. The name of the main
argument is given unless that may be left out. -/
def readArguments {κ σ : Type} (switches : List (Switch κ)) (main : Option (List Char))
    (set : Switch κ → Given (List Char) → σ → Except Declined σ) (start : σ)
    (args : List (List Char)) :
    Except Declined (σ × Option (List Char)) := do
  let as ← match Argument.ofTexts switches args with
    | .ok as => pure as
    | .error m => throw (.misused m)
  let t ← Intake.read switches main.isNone set as ⟨start, none, []⟩
  if let (none, some name) := (t.main, main) then throw (.misused (.required name))
  if t.extra ≠ [] then throw (.misused (.unrecognized t.extra))
  return (t.settings, t.main)

end Coinage
