import Coinage.Proofs.CommandLine.AllOrNothing
import Coinage.Proofs.CommandLine.Arguments
import Coinage.Proofs.Text.Numeral
import Mathlib

/-!
# The seed that is told replays the run

Before words are made the command tells their seed. Run once more on the same files, with this seed
among its arguments in place of what they said about the seed, it leaves behind what it left behind
before: the arguments make the same request but for the seed, and the seed is all that the making of
words has from chance.
-/

namespace Coinage

open Argument

namespace Request

/-! ### Options for the seed -/

/-- What is attached to the name of the seed, if the argument names the seed. -/
def seedName? (arg : List Char) : Option (Option (List Char)) :=
  match ofText switches arg with
  | .ok (.option s _ attached) => if s.key = .seed then some attached else none
  | _ => none

/-- The arguments with others in place of each option for the seed. The first argument is the value
of such an option if the option was `named` in front of it. -/
def replaceSeeds (new : List (List Char)) : (named : Bool) → List (List Char) → List (List Char)
  | _, [] => []
  | true, _ :: args => replaceSeeds new false args
  | false, arg :: args =>
    if arg = hyphens then arg :: args
    else
      match seedName? arg with
      | none => arg :: replaceSeeds new false args
      | some attached => new ++ replaceSeeds new attached.isNone args

example : replaceSeeds ["!".toList] false
      ["-c2".toList, "-s".toList, "7".toList, "l.toml".toList, "--seed=x".toList] =
    ["-c2".toList, "!".toList, "l.toml".toList, "!".toList] := by decide

def seedSwitch : Switch Key := ⟨.seed, ["--seed".toList, "-s".toList], true⟩

def seedArgument (n : Int) : List Char := "--seed=".toList ++ signedDecimal n

/-- The arguments once more with the seed `n`: in front of them, with no other seed left; in place
of each seed that they give, if they give one; or at their end, if no divider makes a text of it. -/
inductive Reseeded (n : Int) (args : List (List Char)) : List (List Char) → Prop
  | inFront : Reseeded n args (seedArgument n :: replaceSeeds [] false args)
  | inPlace : replaceSeeds [] false args ≠ args →
      Reseeded n args (replaceSeeds [seedArgument n] false args)
  | behind : hyphens ∉ args → Reseeded n args (args ++ [seedArgument n])

def reseed (given : Option (Given (List Char))) (t : Intake Settings) : Intake Settings :=
  { t with settings := { t.settings with seed := given } }

@[simp]
theorem enter_seed {s : Switch Key} (hs : s.key = .seed) (g : Given (List Char)) (t : Settings) :
    t.enter s g = .ok { t with seed := some g } := by
  rw [Settings.enter, hs]

/-- The other options have nothing to do with the seed. -/
theorem enter_reseed {s : Switch Key} {g : Given (List Char)} {t t' : Settings}
    (hs : s.key ≠ .seed) (h : t.enter s g = .ok t') (given : Option (Given (List Char))) :
    ({ t with seed := given } : Settings).enter s g = .ok { t' with seed := given } := by
  simp only [Settings.enter] at h ⊢
  cases hk : s.key with
  | seed => exact absurd hk hs
  | help => simp [hk] at h
  | count | budget =>
    simp only [hk] at h ⊢
    obtain ⟨n, hn, h⟩ := except_bind_eq_ok.mp h
    cases h
    exact except_bind_eq_ok.mpr ⟨n, hn, rfl⟩
  | _ =>
    simp only [hk] at h ⊢
    cases h
    rfl

theorem seedName?_of_option {arg : List Char} {s : Switch Key} {short : Bool}
    {attached : Option (List Char)} (h : ofText switches arg = .ok (.option s short attached)) :
    seedName? arg = if s.key = .seed then some attached else none := by
  rw [seedName?, h]

theorem seedName?_of_text {arg : List Char} (h : ofText switches arg = .ok (.text arg)) :
    seedName? arg = none := by
  rw [seedName?, h]

theorem replaceSeeds_cons_of_none {arg : List Char} (harg : arg ≠ hyphens)
    (h : seedName? arg = none) (new args : List (List Char)) :
    replaceSeeds new false (arg :: args) = arg :: replaceSeeds new false args := by
  rw [replaceSeeds, if_neg harg, h]

theorem replaceSeeds_cons_of_some {arg : List Char} {attached : Option (List Char)}
    (harg : arg ≠ hyphens) (h : seedName? arg = some attached) (new args : List (List Char)) :
    replaceSeeds new false (arg :: args) = new ++ replaceSeeds new attached.isNone args := by
  rw [replaceSeeds, if_neg harg, h]

theorem takesValue_of_seed {arg : List Char} {s : Switch Key} {short : Bool}
    {attached : Option (List Char)} (h : ofText switches arg = .ok (.option s short attached))
    (hs : s.key = .seed) : s.takesValue = true := by
  have hswitches : ∀ s ∈ switches, s.key = .seed → s.takesValue = true := by decide
  cases look_of_ofText h with
  | option hmem => exact hswitches s hmem hs

variable {as args : List (List Char)} {s : Switch Key} {g : Given (List Char)}
  {t t' : Intake Settings}

theorem Written.replaceSeeds_of_seed (h : Written as s g) (hs : s.key = .seed)
    (new args : List (List Char)) :
    replaceSeeds new false (as ++ args) = new ++ replaceSeeds new false args := by
  cases h with
  | attached harg =>
    exact replaceSeeds_cons_of_some (ne_hyphens_of_ofText harg)
      ((seedName?_of_option harg).trans (if_pos hs)) new args
  | spaced harg =>
    exact replaceSeeds_cons_of_some (ne_hyphens_of_ofText harg)
      ((seedName?_of_option harg).trans (if_pos hs)) new _
  | flag harg hflag => simp [takesValue_of_seed harg hs] at hflag

theorem Written.replaceSeeds_of_ne (h : Written as s g) (hs : s.key ≠ .seed)
    (new args : List (List Char)) :
    replaceSeeds new false (as ++ args) = as ++ replaceSeeds new false args := by
  cases h with
  | attached harg | flag harg =>
    exact replaceSeeds_cons_of_none (ne_hyphens_of_ofText harg)
      ((seedName?_of_option harg).trans (if_neg hs)) new args
  | @spaced arg value _ _ harg hvalue htext =>
    have hvalue : replaceSeeds new false (value :: args) = value :: replaceSeeds new false args :=
      replaceSeeds_cons_of_none (ne_hyphens_of_ofText htext) (seedName?_of_text htext) new args
    rw [List.cons_append, List.singleton_append,
      replaceSeeds_cons_of_none (ne_hyphens_of_ofText harg)
        ((seedName?_of_option harg).trans (if_neg hs)), hvalue]
    rfl

/-- Where the options for the seed are replaced by arguments that turn the seed given so far into
another one by `f`, the arguments are read as before, but for the seed at the end. -/
theorem Reads.replaceSeeds (h : Reads args t t') (new : List (List Char))
    (f : Option (Given (List Char)) → Option (Given (List Char)))
    (hnew : ∀ args t t', Reads args (reseed (f t.settings.seed) t) t' → Reads (new ++ args) t t')
    (hf : ∀ given, f (f given) = f given) (given : Option (Given (List Char))) :
    ∃ given', Reads (replaceSeeds new false args) (reseed given t) (reseed given' t') ∧
      (given' = f given ∨ given' = given ∧ ∀ as, Request.replaceSeeds as false args = args) := by
  -- `given` is the seed that the second reading has found so far
  induction h generalizing given with
  | done => exact ⟨given, .done, .inr ⟨rfl, fun _ => rfl⟩⟩
  | @option as args s g settings t t' hwritten hset hargs ih =>
    by_cases hs : s.key = .seed
    · obtain ⟨given', hreads, hgiven⟩ := ih (f given)
      rw [enter_seed hs] at hset
      cases hset
      refine ⟨given', ?_, .inl ?_⟩
      · rw [hwritten.replaceSeeds_of_seed hs]
        exact hnew _ (reseed given t) _ hreads
      · obtain hgiven | ⟨hgiven, -⟩ := hgiven
        · exact hgiven.trans (hf given)
        · exact hgiven
    · obtain ⟨given', hreads, hgiven⟩ := ih given
      refine ⟨given', ?_, hgiven.imp_right fun ⟨hsame, hargs⟩ => ⟨hsame, fun new => ?_⟩⟩
      · rw [hwritten.replaceSeeds_of_ne hs]
        exact .option hwritten (enter_reseed hs hset given) hreads
      · rw [hwritten.replaceSeeds_of_ne hs, hargs new]
  | @main arg args t t' harg hmain hargs ih =>
    obtain ⟨given', hreads, hgiven⟩ := ih given
    have hreplace (new : List (List Char)) := replaceSeeds_cons_of_none (ne_hyphens_of_ofText harg)
      (seedName?_of_text harg) new args
    refine ⟨given', ?_, hgiven.imp_right fun ⟨hsame, hargs⟩ => ⟨hsame, fun new => ?_⟩⟩
    · rw [hreplace new]
      exact .main harg hmain hreads
    · rw [hreplace new, hargs new]
  | @mainDivided arg t harg hmain =>
    have hreplace (new : List (List Char)) :
        Request.replaceSeeds new false [arg, hyphens] = [arg, hyphens] :=
      replaceSeeds_cons_of_none (ne_hyphens_of_ofText harg) (seedName?_of_text harg) new _
    refine ⟨given, ?_, .inr ⟨rfl, hreplace⟩⟩
    rw [hreplace new]
    exact .mainDivided harg hmain
  | dividedMain hmain => exact ⟨given, .dividedMain hmain, .inr ⟨rfl, fun _ => rfl⟩⟩

/-- Arguments without a divider may be followed by others. -/
theorem Reads.append {more : List (List Char)} {t'' : Intake Settings} (h : Reads args t t')
    (hdivider : hyphens ∉ args) (hmore : Reads more t' t'') : Reads (args ++ more) t t'' := by
  induction h with
  | done => exact hmore
  | option hwritten hset hargs ih =>
    rw [List.append_assoc]
    exact .option hwritten hset (ih (fun h => hdivider (List.mem_append_right _ h)) hmore)
  | main harg hmain hargs ih =>
    exact .main harg hmain (ih (fun h => hdivider (List.mem_cons_of_mem _ h)) hmore)
  | mainDivided harg hmain => simp at hdivider
  | dividedMain hmain => simp at hdivider

/-! ### The seed in one argument -/

@[simp] theorem signedDecimal_ne_hyphens (n : Int) : signedDecimal n ≠ hyphens := by
  have hnot : '-' ∉ decimal n.natAbs := fun h =>
    absurd (isDigit_char_of_mem_decimal h) (by decide)
  intro h
  rw [signedDecimal] at h
  split at h
  · have hdecimal : decimal n.natAbs = ['-'] := (List.cons.inj h).2
    simp [hdecimal] at hnot
  · have hdecimal : decimal n.natAbs = ['-', '-'] := h
    simp [hdecimal] at hnot

theorem reads_seedArgument (n : Int)
    (h : Reads args (reseed (some (.value (signedDecimal n))) t) t') :
    Reads (seedArgument n :: args) t t' := by
  have hgiven : Given.ofAttached (signedDecimal n) = .value (signedDecimal n) :=
    if_neg (signedDecimal_ne_hyphens n)
  have hname : ofText switches (seedArgument n) = .ok (.option seedSwitch false
      (some (signedDecimal n))) := rfl
  have hwritten : Written [seedArgument n] seedSwitch (.ofAttached (signedDecimal n)) :=
    .attached hname rfl
  rw [hgiven] at hwritten
  exact .option hwritten (enter_seed rfl _ _) h

/-- Repeated with another seed, arguments make the same request but for the seed. -/
theorem ofArguments_of_reseeded {r : Request} {n : Int} {args' : List (List Char)}
    (h : ofArguments args = .ok r) (hn : (decimal n.natAbs).length ≤ maxDigits)
    (h' : Reseeded n args args') :
    ofArguments args' = .ok { r with seed := .value (.fixed n) } := by
  obtain ⟨t, config, seed, hreads, -, rfl⟩ := ofArguments_eq_ok_iff.mp h
  have hseed : seedOf (some (.value (signedDecimal n))) = .ok (.value (.fixed n)) := by
    rw [seedOf, Seed.read_signedDecimal hn]
  let given : Option (Given (List Char)) := some (.value (signedDecimal n))
  suffices hsuffices : Reads args' ⟨.start, none, []⟩ (reseed given ⟨t, some config, []⟩) from
    ofArguments_eq_ok_iff.mpr ⟨_, config, _, hsuffices, hseed, rfl⟩
  cases h' with
  | inFront =>
    obtain ⟨given', hreads', rfl | ⟨rfl, -⟩⟩ :=
      hreads.replaceSeeds [] id (fun _ _ _ h => h) (fun _ => rfl) given
    · exact reads_seedArgument n hreads'
    · exact reads_seedArgument n hreads'
  | inPlace hgives =>
    obtain ⟨given', hreads', rfl | ⟨-, hsame⟩⟩ :=
      hreads.replaceSeeds [seedArgument n] (fun _ => given)
        (fun _ _ _ h => reads_seedArgument n h) (fun _ => rfl) none
    · exact hreads'
    · exact absurd (hsame []) hgives
  | behind hdivider => exact hreads.append hdivider (reads_seedArgument n .done)

/-! ### Runs -/

/-- The seed matters to the steps of a request by its value only, whatever system takes them. -/
theorem carryOut_of_seed {η : Type} {m : Type → Type} [Monad m] [MonadExceptOf Trouble m]
    {r : Request} {seed : Seed} (h : r.seed = .value seed) (host : Host) (sys : System η m)
    (fresh fresh' : Int) :
    ({ r with seed := .value (.fixed (seed.value fresh)) } : Request).carryOut host sys fresh' =
      r.carryOut host sys fresh := by
  have hanswer (content : Except OpenFault (List UInt8)) :
      ({ r with seed := .value (.fixed (seed.value fresh)) } : Request).answer host fresh' content =
        r.answer host fresh content := by
    simp only [answer, h]
    rfl
  simp only [carryOut, guarded, hanswer]
  rfl

/-- A fresh seed, of which there are as many as natural numbers with 63 binary digits, has a numeral
that may be read, and so has a seed that was read. -/
theorem length_decimal_seed {r : Request} {seed : Seed} (h : ofArguments args = .ok r)
    (hseed : r.seed = .value seed) {fresh : Int} (hfresh : 0 ≤ fresh ∧ fresh < twoTo 63) :
    (decimal (seed.value fresh).natAbs).length ≤ maxDigits := by
  obtain ⟨t, config, given, -, hgiven, rfl⟩ := ofArguments_eq_ok_iff.mp h
  obtain rfl : given = .value seed := hseed
  cases seed with
  | fresh =>
    have hlength : (decimal fresh.natAbs).length ≤ 19 := by
      refine length_decimal_le (by decide) ?_
      have htwo : twoTo 63 < tenTo 19 := by decide
      omega
    exact hlength.trans (by decide)
  | fixed n =>
    simp only [seedOf] at hgiven
    split at hgiven
    · cases hgiven
    · cases hgiven
    · rename_i text
      split at hgiven
      · rename_i seed hread
        cases hgiven
        exact Seed.length_decimal_of_read hread
      · cases hgiven

/-- The command gets so far that it tells the seed `n`. -/
inductive TellsSeed (host : Host) (fresh : Int) (fs : Files) (args : List (List Char)) (n : Int) :
    Prop
  | intro {r : Request} {l : Language} {p : Pattern} {s : Setting} :
      ofArguments args = .ok r → r.Ready host fresh fs l p s → s.seed = n →
      TellsSeed host fresh fs args n

end Request

/-- What a command has told in trouble begins with what it had told before. -/
theorem Trouble.told_prefix_outcome (told : List (List Char)) (e : Trouble) :
    lines told <+: (e.outcome told).messages := by
  rw [outcome]
  split
  · simp only [lines_append]
    exact List.prefix_append _ _
  · exact List.prefix_refl _

namespace Request

variable {host : Host}

theorem told_prefix_run {r : Request} {fresh : Int} {fs : Files} {told : List (List Char)}
    {result : Except Trouble (List (List Char))}
    (h : r.answer host fresh (r.content host fs) = (told, result)) :
    lines told <+: (r.run host fresh fs).1.messages := by
  cases result with
  | error e =>
    rw [run_of_error h]
    exact Trouble.told_prefix_outcome told e
  | ok ls =>
    generalize hresult : r.run host fresh fs = result
    have hcourse := course_of_run h
    rw [hresult] at hcourse
    cases hcourse with
    | unopened => exact Trouble.told_prefix_outcome told _
    | _ => exact List.prefix_refl _

/-- The seed is told in a line of its own. -/
theorem TellsSeed.exists_messages {fresh n : Int} {fs : Files} {args : List (List Char)}
    (h : TellsSeed host fresh fs args n) :
    ∃ before rest, (makeWords host fresh fs args).1.messages =
      before ++ "\nseed: ".toList ++ signedDecimal n ++ '\n' :: rest := by
  obtain @⟨r, l, p, s, hargs, hready, rfl⟩ := h
  obtain ⟨rest, hrest⟩ := told_prefix_run hready.answer_eq
  let first : List Char := "Generating ".toList ++ r.count.shown signedDecimal ++
    " words of language `".toList ++ l.name ++ "` using pattern `".toList ++ r.shownWord l ++
    "`".toList
  have htold : lines (r.announcement l (r.shownWord l) s.seed) =
      first ++ "\nseed: ".toList ++ signedDecimal s.seed ++ ['\n'] := by
    simp [announcement, first]
  refine ⟨first, rest, ?_⟩
  rw [makeWords, hargs, ← hrest, htold, List.append_assoc, List.singleton_append]

end Request

/-- The seed that is told replays the run. Whenever the command gets so far that it tells a seed, in
a line of its own, the same arguments with this seed, given in one argument, leave the same behind
on the same files, whatever seed would be drawn afresh: the same ending, also where that is not
reported, the same output and messages, and the same files. For the numeral of an integer is read as
the integer if it is not too long, and never as a wish for a fresh seed. -/
theorem makeWords_replays {host : Host} {fresh n : Int} {fs : Files} {args : List (List Char)}
    (hfresh : 0 ≤ fresh ∧ fresh < twoTo 63) (h : Request.TellsSeed host fresh fs args n) :
    (∃ before rest, (makeWords host fresh fs args).1.messages =
      before ++ "\nseed: ".toList ++ signedDecimal n ++ '\n' :: rest) ∧
    (∀ args', Request.Reseeded n args args' →
      ∀ fresh', makeWords host fresh' fs args' = makeWords host fresh fs args) ∧
    ∀ i : Int, (decimal i.natAbs).length ≤ maxDigits →
      Seed.read (signedDecimal i) = .ok (.fixed i) := by
  refine ⟨h.exists_messages, fun args' h' fresh' => ?_, fun i => Seed.read_signedDecimal⟩
  obtain ⟨hargs, ⟨-, -, seed, budget, hseed, -, hs⟩, rfl⟩ := h
  rw [Language.setting_seed hs] at h'
  have hlength := Request.length_decimal_seed hargs hseed hfresh
  rw [makeWords, Request.ofArguments_of_reseeded hargs hlength h', makeWords, hargs]
  simp only [Request.run, Request.carryOut_of_seed hseed host host.system fresh fresh']

/-- A seed with a sign and a leading zero is told, and given once more, without them. -/
theorem makeWords_replays_plus_zero_seven :
    let host : Host := ⟨fun _ _ => .ok (.mapping [(.text "word".toList, .text ['a'])]), none,
      fun _ => StandIn.unencodable?⟩
    let fs : Files := ⟨fun place => place = [],
      [(["l.toml".toList], .file (bytesOfText "word='a'".toList))]⟩
    let args : List (List Char) := ["l.toml".toList, "-c2".toList, "-s".toList, "+07".toList]
    let args' : List (List Char) := ["--seed=7".toList, "l.toml".toList, "-c2".toList]
    (0 ≤ (3 : Int) ∧ (3 : Int) < twoTo 63) ∧ Request.TellsSeed host 3 fs args 7 ∧
      Request.Reseeded 7 args args' ∧
      ∀ fresh, makeWords host fresh fs args' = makeWords host 3 fs args := by
  have hseven : signedDecimal 7 = ['7'] := by
    rw [signedDecimal, if_neg (by decide), decimal_of_lt (by decide)]
    rfl
  intro host fs args args'
  let r : Request := ⟨"l.toml".toList, .value 2, .value (.fixed 7), none, none, .value 200, false⟩
  let l : Language := ⟨[], ['a'], []⟩
  let p : Pattern := ⟨['a'], .sequence [.particle ['a'] .once] .once⟩
  let s : Setting := ⟨7, ⟨[], []⟩, 200, none⟩
  have hfresh : 0 ≤ (3 : Int) ∧ (3 : Int) < twoTo 63 := by decide
  have hargs : Request.ofArguments args = .ok r := by rfl
  have habout : r.About host fs l p := ⟨by cbv, by cbv⟩
  have hready : r.Ready host 3 fs l p s := ⟨habout, rfl, .fixed 7, 200, rfl, rfl, by cbv⟩
  have htells : Request.TellsSeed host 3 fs args 7 := .intro hargs hready rfl
  have hagain : Request.Reseeded 7 args args' := by
    have hseed : "--seed=".toList ++ ['7'] = "--seed=7".toList := by decide
    have hothers : Request.replaceSeeds [] false args = ["l.toml".toList, "-c2".toList] := by rfl
    have hargs' : Request.seedArgument 7 :: Request.replaceSeeds [] false args = args' := by
      change ("--seed=".toList ++ signedDecimal 7) :: _ = _
      rw [hseven, hseed, hothers]
    rw [← hargs']
    exact .inFront
  exact ⟨hfresh, htells, hagain, (makeWords_replays hfresh htells).2.1 args' hagain⟩

end Coinage
