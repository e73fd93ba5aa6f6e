import Coinage.CommandLine.Request
import Coinage.Proofs.Results
import Mathlib

/-!
# Accepted arguments

The arguments that are accepted as a request are options with what is given for them and, somewhere
between them, the main argument. Nothing is left over, no options share a hyphen, and a divider
stands at the end only, beside the main argument.
-/

namespace Coinage

open Argument

namespace Argument

variable {κ : Type} {ss : List (Switch κ)} {arg : List Char}

theorem named?_eq_some {name : List Char} {s : Switch κ} (h : named? ss name = some s) :
    s ∈ ss ∧ name ∈ s.names :=
  ⟨List.mem_of_find?_eq_some h, by simpa using List.find?_some h⟩

theorem splitValue_fst (arg : List Char) : (splitValue arg).1 = arg.takeWhile (· != '=') := by
  rw [splitValue]
  split
  · rename_i hdrop
    have happend := List.takeWhile_append_dropWhile (p := (· != '=')) (l := arg)
    rw [hdrop, List.append_nil] at happend
    exact happend.symm
  · rfl

/-- What an argument may look like in front of the divider. -/
inductive Look (ss : List (Switch κ)) (arg : List Char) : Argument κ → Prop
  | text : Look ss arg (.text arg)
  | unknown : Look ss arg (.unknown arg)
  | option {s : Switch κ} {short : Bool} {attached : Option (List Char)} :
      s ∈ ss → (short = true → ∃ name ∈ s.names, ¬hyphens <+: name) →
      Look ss arg (.option s short attached)

theorem look_unnamed (arg : List Char) : Look ss arg (unnamed arg) := by
  rw [unnamed]
  split
  · exact .text
  · exact .unknown

theorem mem_of_completions_eq {start name : List Char} {s : Switch κ}
    (h : completions ss start = [(name, s)]) : s ∈ ss := by
  have hmem : (name, s) ∈ completions ss start := h ▸ List.mem_singleton_self _
  obtain ⟨t, ht, hname⟩ := List.mem_flatMap.mp hmem
  obtain ⟨n, -, he⟩ := List.mem_map.mp hname
  cases he
  exact ht

theorem look_ofShortened {a : Argument κ} (h : ofShortened ss arg = .ok a) : Look ss arg a := by
  simp only [ofShortened] at h
  split at h
  · cases h
    exact look_unnamed arg
  · rename_i hcompletions
    cases h
    exact .option (mem_of_completions_eq hcompletions) nofun
  · cases h

theorem look_of_ofText {a : Argument κ} (h : ofText ss arg = .ok a) : Look ss arg a := by
  simp only [ofText] at h
  split at h
  · rename_i c cs
    -- a name behind one hyphen does not begin with two
    have hshort {name : List Char} (hc : (c != '-') = true)
        (hname : name <+: '-' :: c :: cs) : ¬hyphens <+: name := by
      intro hhyphens
      obtain ⟨rest, hrest⟩ : ['-', '-'] <+: '-' :: c :: cs := hhyphens.trans hname
      cases hrest
      exact absurd hc (by decide)
    split at h
    · rename_i s hs
      cases h
      have hs := named?_eq_some hs
      exact .option hs.1 fun hc => ⟨_, hs.2, hshort hc (List.prefix_refl _)⟩
    · rename_i s hwhole hs
      cases h
      have hs := named?_eq_some hs
      exact .option hs.1 fun hc => ⟨_, hs.2, hshort hc (splitValue_fst _ ▸ List.takeWhile_prefix _)⟩
    · split at h
      · exact look_ofShortened h
      · rename_i hc
        split at h
        · rename_i s hs
          cases h
          have hs := named?_eq_some hs
          exact .option hs.1 fun _ => ⟨_, hs.2, hshort (by simpa using hc) ⟨cs, rfl⟩⟩
        · cases h
          exact look_unnamed _
  · cases h
    exact .text

end Argument

namespace Bundle

variable {κ : Type} {ss : List (Switch κ)} {s : Switch κ}

@[simp] theorem ofAttached_of_takesValue (hs : s.takesValue = true) (value : List Char) :
    ofAttached ss s value = .ok ⟨[], s, some value⟩ := by
  cases value <;> rw [ofAttached.eq_def] <;> exact if_pos hs

@[simp] theorem ofOption_of_takesValue (hs : s.takesValue = true) (short : Bool)
    (attached : Option (List Char)) : ofOption ss s short attached = .ok ⟨[], s, attached⟩ := by
  cases attached with
  | none => rfl
  | some value =>
    cases short with
    | false => simp [ofOption, hs]
    | true => simp [ofOption, ofAttached_of_takesValue hs]

/-- Letters attached to an option without a value are further options. -/
theorem flags_of_ofAttached {value : List Char} {b : Bundle κ} (hs : s.takesValue = false)
    (h : ofAttached ss s value = .ok b) : ∃ flags, b.flags = s :: flags := by
  rw [ofAttached.eq_def] at h
  split at h
  · simp [hs] at h
  · rw [if_neg (by simp [hs])] at h
    split at h
    · cases h
    · cases h
      exact ⟨[], rfl⟩
    · obtain ⟨rest, -, h⟩ := except_bind_eq_ok.mp h
      cases h
      exact ⟨rest.flags, rfl⟩

end Bundle

namespace Intake

variable {κ σ : Type} {ss : List (Switch κ)} {optional : Bool}
  {set : Switch κ → Given (List Char) → σ → Except Declined σ}

@[simp] theorem enter_alone (s : Switch κ) (attached : Option (List Char)) (g : Given (List Char))
    (t : Intake σ) :
    t.enter set ⟨[], s, attached⟩ g = do return { t with settings := ← set s g t.settings } := by
  rw [enter, List.foldlM_nil, pure_bind]

theorem extra_of_enter {b : Bundle κ} {g : Given (List Char)} {t t' : Intake σ}
    (h : t.enter set b g = .ok t') : t'.extra = t.extra := by
  obtain ⟨_, -, h⟩ := except_bind_eq_ok.mp h
  obtain ⟨_, -, h⟩ := except_bind_eq_ok.mp h
  cases h
  rfl

/-- What is left over stays so. -/
theorem extra_prefix_of_read {as : List (Argument κ)} {t t' : Intake σ}
    (h : read ss optional set as t = .ok t') : t.extra <+: t'.extra := by
  fun_induction read ss optional set as t with
  | case1 t =>
    cases h
    exact List.prefix_refl _
  | case2 arg as t ih => exact (List.prefix_append _ _).trans (ih h)
  | case3 => cases h
  | case4 s short attached t b hb value as hattached ih =>
    obtain ⟨t₁, henter, h⟩ := except_bind_eq_ok.mp h
    exact extra_of_enter henter ▸ ih t₁ h
  | case5 s short attached t b hb value as hvalue hattached ih =>
    obtain ⟨t₁, henter, h⟩ := except_bind_eq_ok.mp h
    exact extra_of_enter henter ▸ ih t₁ h
  | case6 => cases h
  | case7 s short attached t b hb as hflag hattached ih =>
    obtain ⟨t₁, henter, h⟩ := except_bind_eq_ok.mp h
    exact extra_of_enter henter ▸ ih t₁ h
  | case8 arg as t main hmain ih => exact (List.prefix_append _ _).trans (ih h)
  | case9 arg t hmain t₁ as ih => exact ih h
  | case10 arg t hmain t₁ as hnot ih => exact ih h
  | case11 t arg as hmain ih => exact ih h
  | case12 t hmain =>
    cases h
    split
    · exact List.prefix_refl _
    · exact List.prefix_append _ _
  | case13 t as hnot hend ih => exact (List.prefix_append _ _).trans (ih h)

theorem not_extra_of_leave {arg : List Char} {as : List (Argument κ)} {t t' : Intake σ}
    (h : read ss optional set as (t.leave arg) = .ok t') : t'.extra ≠ [] := by
  intro hextra
  have hprefix := extra_prefix_of_read h
  rw [hextra, List.prefix_nil, leave] at hprefix
  simp at hprefix

/-- Behind the main argument and the divider there is nothing. -/
theorem eq_nil_of_read_texts {main : List Char} {args : List (List Char)} {t t' : Intake σ}
    (hmain : t.main = some main) (h : read ss optional set (args.map .text) t = .ok t')
    (hextra : t'.extra = []) : args = [] ∧ t' = t := by
  cases args with
  | nil =>
    cases h
    exact ⟨rfl, rfl⟩
  | cons arg args =>
    rw [List.map_cons, read, hmain] at h
    exact absurd hextra (not_extra_of_leave h)

end Intake

/-- Where a main argument is required it has to be there, and no argument may be left over. -/
theorem readArguments_eq_ok_iff {κ σ : Type} {ss : List (Switch κ)} {name : List Char}
    {set : Switch κ → Given (List Char) → σ → Except Declined σ} {start settings : σ}
    {args : List (List Char)} {main : Option (List Char)} :
    readArguments ss (some name) set start args = .ok (settings, main) ↔
      ∃ as config, ofTexts ss args = .ok as ∧
        Intake.read ss false set as ⟨start, none, []⟩ = .ok ⟨settings, some config, []⟩ ∧
        main = some config := by
  constructor
  · intro h
    rw [readArguments] at h
    cases has : ofTexts ss args with
    | error m =>
      rw [has] at h
      cases h
    | ok as =>
      simp only [has, pure_bind, Option.isNone_some] at h
      obtain ⟨⟨settings', main', extra⟩, hread, h⟩ := except_bind_eq_ok.mp h
      cases main' with
      | none => cases h
      | some config =>
        cases extra with
        | nil =>
          cases h
          exact ⟨as, config, rfl, hread, rfl⟩
        | cons arg extra => cases h
  · rintro ⟨as, config, has, hread, rfl⟩
    simp only [readArguments, has, pure_bind, Option.isNone_some, hread]
    rfl

namespace Request

/-- An option and what is given for it, as they are written in arguments. -/
inductive Written : List (List Char) → Switch Key → Given (List Char) → Prop
  /-- The value is attached to the name. -/
  | attached {arg : List Char} {s : Switch Key} {short : Bool} {value : List Char} :
      ofText switches arg = .ok (.option s short (some value)) → s.takesValue = true →
      Written [arg] s (.ofAttached value)
  /-- The value is the next argument. -/
  | spaced {arg value : List Char} {s : Switch Key} {short : Bool} :
      ofText switches arg = .ok (.option s short none) → s.takesValue = true →
      ofText switches value = .ok (.text value) → Written [arg, value] s (.value value)
  /-- The option takes no value. -/
  | flag {arg : List Char} {s : Switch Key} {short : Bool} :
      ofText switches arg = .ok (.option s short none) → s.takesValue = false →
      Written [arg] s .blank

/-- Arguments lead from one state of reading to another, and none of them is left over. -/
inductive Reads : List (List Char) → Intake Settings → Intake Settings → Prop
  | done {t : Intake Settings} : Reads [] t t
  | option {as args : List (List Char)} {s : Switch Key} {g : Given (List Char)}
      {settings : Settings} {t t' : Intake Settings} :
      Written as s g → t.settings.enter s g = .ok settings →
      Reads args { t with settings } t' → Reads (as ++ args) t t'
  | main {arg : List Char} {args : List (List Char)} {t t' : Intake Settings} :
      ofText switches arg = .ok (.text arg) → t.main = none →
      Reads args { t with main := some arg } t' → Reads (arg :: args) t t'
  | mainDivided {arg : List Char} {t : Intake Settings} :
      ofText switches arg = .ok (.text arg) → t.main = none →
      Reads [arg, hyphens] t { t with main := some arg }
  | dividedMain {arg : List Char} {t : Intake Settings} :
      t.main = none → Reads [hyphens, arg] t { t with main := some arg }

variable {arg : List Char} {args : List (List Char)} {a : Argument Key} {as : List (Argument Key)}
  {s : Switch Key} {g : Given (List Char)} {t t' : Intake Settings}

/-- Help is the only option without a value that has a name behind one hyphen. -/
theorem key_eq_help {attached : Option (List Char)}
    (harg : ofText switches arg = .ok (.option s true attached)) (hs : s.takesValue = false) :
    s.key = .help := by
  have hkey : ∀ s ∈ switches, s.takesValue = false → s.key ≠ .help →
      ∀ name ∈ s.names, hyphens <+: name := by
    decide
  obtain ⟨hmem, hshort⟩ : s ∈ switches ∧ ∃ name ∈ s.names, ¬hyphens <+: name := by
    cases look_of_ofText harg with
    | option hmem hshort => exact ⟨hmem, hshort rfl⟩
  obtain ⟨name, hname, hnot⟩ := hshort
  by_contra hhelp
  exact hnot (hkey s hmem hs hhelp name hname)

/-- Options share no hyphen: the first of them would be the one that asks for help. -/
theorem enter_ofOption {short : Bool} {attached : Option (List Char)} {b : Bundle Key}
    (harg : ofText switches arg = .ok (.option s short attached))
    (hb : Bundle.ofOption switches s short attached = .ok b)
    (h : t.enter Settings.enter b g = .ok t') :
    b = ⟨[], s, attached⟩ ∧ (attached ≠ none → s.takesValue = true) ∧
      ∃ settings, t.settings.enter s g = .ok settings ∧ t' = { t with settings } := by
  have hentered (hb : b = ⟨[], s, attached⟩) :
      ∃ settings, t.settings.enter s g = .ok settings ∧ t' = { t with settings } := by
    rw [hb, Intake.enter_alone] at h
    obtain ⟨settings, hset, h⟩ := except_bind_eq_ok.mp h
    cases h
    exact ⟨settings, hset, rfl⟩
  cases attached with
  | none =>
    obtain rfl : b = ⟨[], s, none⟩ := (Except.ok.inj hb).symm
    exact ⟨rfl, fun hne => absurd rfl hne, hentered rfl⟩
  | some value =>
    cases hs : s.takesValue with
    | true =>
      rw [Bundle.ofOption_of_takesValue hs] at hb
      obtain rfl : b = ⟨[], s, some value⟩ := (Except.ok.inj hb).symm
      exact ⟨rfl, fun _ => rfl, hentered rfl⟩
    | false =>
      cases short with
      | false => simp [Bundle.ofOption, hs] at hb
      | true =>
        obtain ⟨flags, hflags⟩ := Bundle.flags_of_ofAttached hs hb
        have hhelp : t.settings.enter s .blank = .error .help := by
          rw [Settings.enter, key_eq_help harg hs]
        rw [Intake.enter, hflags, List.foldlM_cons, hhelp] at h
        cases h

theorem ne_hyphens_of_ofText (h : ofText switches arg = .ok a) : arg ≠ hyphens := by
  rintro rfl
  cases h

theorem ofTexts_cons_of_ofText (ha : ofText switches arg = .ok a)
    (has : ofTexts switches args = .ok as) : ofTexts switches (arg :: args) = .ok (a :: as) := by
  rw [ofTexts, if_neg (ne_hyphens_of_ofText ha), ha, has]
  rfl

/-- The first argument is the divider, and the others are texts; or it looks like what it is. -/
theorem ofTexts_eq_cons
    (h : ofTexts switches args = .ok (a :: as)) :
    ∃ arg rest, args = arg :: rest ∧
      (arg = hyphens ∧ a = .divider ∧ as = rest.map .text ∨
        ofText switches arg = .ok a ∧ ofTexts switches rest = .ok as) := by
  cases args with
  | nil => cases h
  | cons arg rest =>
    refine ⟨arg, rest, rfl, ?_⟩
    rw [ofTexts] at h
    split at h
    · rename_i harg
      cases h
      exact .inl ⟨harg, rfl, rfl⟩
    · obtain ⟨a', ha, h⟩ := except_bind_eq_ok.mp h
      obtain ⟨as', has, h⟩ := except_bind_eq_ok.mp h
      cases h
      exact .inr ⟨ha, has⟩

theorem eq_nil_of_ofTexts (h : ofTexts switches args = .ok []) : args = [] := by
  cases args with
  | nil => rfl
  | cons arg rest =>
    rw [ofTexts] at h
    split at h
    · cases h
    · obtain ⟨_, -, h⟩ := except_bind_eq_ok.mp h
      obtain ⟨_, -, h⟩ := except_bind_eq_ok.mp h
      cases h

theorem ofText_of_ofTexts
    (h : ofTexts switches args = .ok (a :: as)) (ha : a ≠ .divider) :
    ∃ arg rest, args = arg :: rest ∧ ofText switches arg = .ok a ∧
      ofTexts switches rest = .ok as := by
  obtain ⟨arg, rest, rfl, ⟨-, rfl, -⟩ | hrest⟩ := ofTexts_eq_cons h
  · exact absurd rfl ha
  · exact ⟨arg, rest, rfl, hrest⟩

theorem texts_of_divider
    (h : ofTexts switches args = .ok (.divider :: as)) :
    ∃ rest, args = hyphens :: rest ∧ as = rest.map .text := by
  obtain ⟨arg, rest, rfl, ⟨rfl, -, has⟩ | ⟨harg, -⟩⟩ := ofTexts_eq_cons h
  · exact ⟨rest, rfl, has⟩
  · cases look_of_ofText harg

theorem ofText_text {text : List Char} (h : ofText switches arg = .ok (.text text)) :
    text = arg := by
  cases look_of_ofText h
  rfl

/-- The invariant is that nothing has been left over: what is left over once stays so. -/
theorem reads_of_read (has : ofTexts switches args = .ok as)
    (h : Intake.read switches false Settings.enter as t = .ok t') (hextra : t'.extra = []) :
    Reads args t t' := by
  fun_induction Intake.read switches false Settings.enter as t generalizing args with
  | case1 t =>
    cases h
    obtain rfl := eq_nil_of_ofTexts has
    exact .done
  | case2 arg as t ih => exact absurd hextra (Intake.not_extra_of_leave h)
  | case3 => cases h
  | case4 s short attached t b hb value as hattached ih =>
    obtain ⟨t₁, henter, hread⟩ := except_bind_eq_ok.mp h
    obtain ⟨arg, rest, rfl, harg, hrest⟩ := ofText_of_ofTexts has nofun
    obtain ⟨rfl, hvalue, settings, hset, rfl⟩ := enter_ofOption harg hb henter
    obtain rfl : attached = some value := hattached
    exact .option (.attached harg (hvalue nofun)) hset (ih _ hrest hread)
  | case5 s short attached t b hb value as hvalue hattached ih =>
    obtain ⟨t₁, henter, hread⟩ := except_bind_eq_ok.mp h
    obtain ⟨arg, args, rfl, harg, hargs⟩ := ofText_of_ofTexts has nofun
    obtain ⟨text, rest, rfl, htext, hrest⟩ := ofText_of_ofTexts hargs nofun
    obtain ⟨rfl, -, settings, hset, rfl⟩ := enter_ofOption harg hb henter
    obtain rfl : attached = none := hattached
    obtain rfl := ofText_text htext
    exact .option (.spaced harg hvalue htext) hset (ih _ hrest hread)
  | case6 => cases h
  | case7 s short attached t b hb as hflag hattached ih =>
    obtain ⟨t₁, henter, hread⟩ := except_bind_eq_ok.mp h
    obtain ⟨arg, rest, rfl, harg, hrest⟩ := ofText_of_ofTexts has nofun
    obtain ⟨rfl, -, settings, hset, rfl⟩ := enter_ofOption harg hb henter
    obtain rfl : attached = none := hattached
    exact .option (.flag harg hflag) hset (ih _ hrest hread)
  | case8 arg as t main hmain ih => exact absurd hextra (Intake.not_extra_of_leave h)
  | case9 text t hmain t₁ as =>
    obtain ⟨arg, rest, rfl, harg, hrest⟩ := ofText_of_ofTexts has nofun
    obtain rfl := ofText_text harg
    obtain ⟨rest, rfl, rfl⟩ := texts_of_divider hrest
    obtain ⟨rfl, rfl⟩ := Intake.eq_nil_of_read_texts rfl h hextra
    exact .mainDivided harg hmain
  | case10 text t hmain t₁ as hnot =>
    rename_i ih
    obtain ⟨arg, rest, rfl, harg, hrest⟩ := ofText_of_ofTexts has nofun
    obtain rfl := ofText_text harg
    exact .main harg hmain (ih hrest h)
  | case11 t text as hmain ih =>
    obtain ⟨rest, rfl, htexts⟩ := texts_of_divider has
    cases rest with
    | nil => cases htexts
    | cons arg rest =>
      cases htexts
      obtain ⟨rfl, rfl⟩ := Intake.eq_nil_of_read_texts rfl h hextra
      exact .dividedMain hmain
  | case12 t hmain =>
    cases h
    simp [Intake.leave] at hextra
  | case13 t as hnot hend ih => exact absurd hextra (Intake.not_extra_of_leave h)

theorem Written.exists_ofText (h : Written args s g) :
    ∃ arg rest short attached, args = arg :: rest ∧
      ofText switches arg = .ok (.option s short attached) := by
  cases h with
  | attached harg => exact ⟨_, _, _, _, rfl, harg⟩
  | spaced harg => exact ⟨_, _, _, _, rfl, harg⟩
  | flag harg => exact ⟨_, _, _, _, rfl, harg⟩

/-- A divider comes before the main argument. -/
theorem Reads.main_of_hyphens (h : Reads (hyphens :: args) t t') : t.main = none := by
  generalize hargs : hyphens :: args = all at h
  cases h with
  | done => cases hargs
  | option hwritten =>
    obtain ⟨arg, rest, short, attached, rfl, harg⟩ := hwritten.exists_ofText
    exact absurd (List.cons.inj hargs).1.symm (ne_hyphens_of_ofText harg)
  | main harg hmain => exact hmain
  | mainDivided harg hmain => exact hmain
  | dividedMain hmain => exact hmain

theorem enter_of_set {attached : Option (List Char)} {settings : Settings}
    (h : t.settings.enter s g = .ok settings) :
    t.enter Settings.enter ⟨[], s, attached⟩ g = .ok { t with settings } := by
  rw [Intake.enter_alone, h]
  rfl

theorem read_of_reads (h : Reads args t t') :
    ∃ as, ofTexts switches args = .ok as ∧
      Intake.read switches false Settings.enter as t = .ok t' := by
  induction h with
  | done => exact ⟨[], rfl, rfl⟩
  | @option ws args s g settings t t' hwritten hset hargs ih =>
    obtain ⟨as, has, hread⟩ := ih
    cases hwritten with
    | attached harg hs =>
      refine ⟨_, ofTexts_cons_of_ofText harg has, ?_⟩
      rw [Intake.read, Bundle.ofOption_of_takesValue hs]
      simp only [enter_of_set hset]
      exact hread
    | spaced harg hs hvalue =>
      refine ⟨_, ofTexts_cons_of_ofText harg (ofTexts_cons_of_ofText hvalue has), ?_⟩
      rw [Intake.read, Bundle.ofOption_of_takesValue hs]
      simp only [hs, enter_of_set hset]
      exact hread
    | flag harg hs =>
      refine ⟨_, ofTexts_cons_of_ofText harg has, ?_⟩
      rw [Intake.read, Bundle.ofOption]
      simp only [hs, enter_of_set hset]
      exact hread
  | @main arg args t t' harg hmain hargs ih =>
    obtain ⟨as, has, hread⟩ := ih
    refine ⟨_, ofTexts_cons_of_ofText harg has, ?_⟩
    rw [Intake.read, hmain]
    dsimp only
    split
    · -- the divider would have come before a main argument
      obtain ⟨rest, rfl, -⟩ := texts_of_divider has
      exact absurd hargs.main_of_hyphens nofun
    · exact hread
  | @mainDivided arg t harg hmain =>
    refine ⟨_, ofTexts_cons_of_ofText harg rfl, ?_⟩
    rw [Intake.read, hmain]
    rfl
  | @dividedMain arg t hmain =>
    refine ⟨[.divider, .text arg], rfl, ?_⟩
    simp only [Intake.read, hmain]

/-- The arguments of a request, and what they say. -/
theorem ofArguments_eq_ok_iff {r : Request} :
    ofArguments args = .ok r ↔ ∃ t config seed,
      Reads args ⟨.start, none, []⟩ ⟨t, some config, []⟩ ∧ seedOf t.seed = .ok seed ∧
      r = ⟨config, t.count, seed, t.target, t.pattern, t.budget, t.outline⟩ := by
  constructor
  · intro h
    obtain ⟨⟨t, main⟩, hargs, h⟩ := except_bind_eq_ok.mp h
    obtain ⟨seed, hseed, h⟩ := except_bind_eq_ok.mp h
    obtain ⟨as, config, has, hread, rfl⟩ := readArguments_eq_ok_iff.mp hargs
    cases h
    exact ⟨t, config, seed, reads_of_read has hread rfl, hseed, rfl⟩
  · rintro ⟨t, config, seed, hreads, hseed, rfl⟩
    obtain ⟨as, has, hread⟩ := read_of_reads hreads
    have hargs : readArguments switches (some "config".toList) Settings.enter .start args =
        .ok (t, some config) := readArguments_eq_ok_iff.mpr ⟨as, config, has, hread, rfl⟩
    exact except_bind_eq_ok.mpr ⟨_, hargs, except_bind_eq_ok.mpr ⟨seed, hseed, rfl⟩⟩

end Request

end Coinage
