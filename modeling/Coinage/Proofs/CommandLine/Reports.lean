import Coinage.Proofs.CommandLine.AllOrNothing
import Coinage.Proofs.Generation.Batch
import Coinage.Proofs.Generation.Safety
import Mathlib

/-!
# What is reported

Where the command that makes words cannot do what it is asked for, it says so and ends with the
status two. It does not in a handful of cases, in which it breaks off: nothing but flaws of patterns
and languages, and files that cannot be opened, is reported, and there is more that can go wrong.
-/

namespace Coinage

/-- The outcome is a success, or a failure that is reported in the last line of the messages. -/
def Outcome.Reports {ε : Type} (o : Outcome ε) : Prop :=
  o.ending.status = 0 ∨
    o.ending.status = 2 ∧
      ∃ told text, o.messages = told ++ "wordgen error: ".toList ++ text ++ ['\n']

namespace Trouble

theorem outcome_of_unreported {e : Trouble} (h : e.isReported = false)
    (told : List (List Char)) : e.outcome told = ⟨.broken e, [], lines told⟩ := by
  rw [outcome, if_neg (by simp [h])]

theorem reports_of_reported {e : Trouble} (h : e.isReported = true) (told : List (List Char)) :
    (e.outcome told).Reports := by
  rw [outcome, if_pos h]
  exact .inr ⟨rfl, lines told, e.message, by simp⟩

/-- A trouble is reported, or it breaks the command off and is known as the reason. -/
theorem reports_or_broken (told : List (List Char)) (e : Trouble) :
    (e.outcome told).Reports ∨ e.isReported = false ∧ (e.outcome told).ending = .broken e := by
  cases h : e.isReported with
  | true => exact .inl (reports_of_reported h told)
  | false => exact .inr ⟨rfl, by rw [outcome_of_unreported h]⟩

end Trouble

namespace Language

variable {l : Language}

theorem setting_of_build {book : Rulebook} (seed budget : Int) (ceiling : Option Nat)
    (h : Rulebook.build (Definition.ofTexts l.productions) = .ok book) :
    l.setting seed budget ceiling = .ok ⟨seed, book, budget, ceiling⟩ :=
  Setting.build_eq_ok.mpr ⟨h, rfl⟩

theorem setting_of_build_error {e : RulebookError} (seed budget : Int) (ceiling : Option Nat)
    (h : Rulebook.build (Definition.ofTexts l.productions) = .error e) :
    l.setting seed budget ceiling = .error e :=
  Setting.build_eq_error.mpr h

end Language

namespace Request

/-- The troubles of a request that are not reported, each with what has to come about for it. -/
inductive Unreported (r : Request) (host : Host) (fresh : Int) (fs : Files) : Trouble → Prop
  /-- The path of the language file cannot be encoded, or contains the character zero. -/
  | noConfig {f : PathFault} : Format.ofSuffix? (Path.suffix r.config) ≠ none →
      host.pathFault? (Path.normal r.config) = some f →
      Unreported r host fresh fs (.language (.unreadable (Path.normal r.config) (.path f)))
  /-- The decoder breaks off on the content of the language file. -/
  | decoder {format : Format} {bytes : List UInt8} {b : Breakdown} :
      Format.ofSuffix? (Path.suffix r.config) = some format → r.content host fs = .ok bytes →
      host.decode format bytes = .error (.broken b) →
      Unreported r host fresh fs (.language (.broken b))
  /-- A key of the productions is a number with too many digits. -/
  | vastKey {d : Data} : Data.ofFile host.decode r.config (r.content host fs) = .ok d →
      Language.ofData d = .error .vastProductionName →
      Unreported r host fresh fs (.language (.misshapen (Path.normal r.config) .vastProductionName))
  /-- A numeral in the pattern has too many digits. -/
  | numeral {l : Language} {n : Nat} :
      Language.ofFile host.decode r.config (r.content host fs) = .ok l →
      Pattern.compile (r.source l) = .error (.digits n) →
      Unreported r host fresh fs (.pattern (.digits n))
  /-- A numeral in the text of a production has too many digits. -/
  | numeralOfProduction {l : Language} {p : Pattern} {n : Nat} : r.About host fs l p →
      r.outline = false →
      Rulebook.build (Definition.ofTexts l.productions) = .error (.refused (.digits n)) →
      Unreported r host fresh fs (.rules (.refused (.digits n)))
  /-- The option for the budget is blank. -/
  | blankBudget {l : Language} {p : Pattern} {book : Rulebook} : r.About host fs l p →
      r.outline = false → Rulebook.build (Definition.ofTexts l.productions) = .ok book →
      r.budget = .blank → Unreported r host fresh fs .blankNumber
  /-- The option for the number of words is blank. -/
  | blankCount {l : Language} {p : Pattern} {s : Setting} : r.Ready host fresh fs l p s →
      r.count = .blank → Unreported r host fresh fs .blankCount
  /-- Bounds are too wide to draw from. -/
  | width {l : Language} {p : Pattern} {s : Setting} {count : Int} {written : List Char}
      {run : Run Twister} {u : Tree} : r.Ready host fresh fs l p s → r.count = .value count →
      s.generateBatch p.root count (.start (.ofSeed s.seed)) = .error ⟨.tooWide, written⟩ run →
      Reaches (treeOf l.productions) p.root u → u.bounds.TooWide →
      Unreported r host fresh fs (.generation .tooWide)
  /-- The path of the file for the words cannot be encoded, or contains the character zero. -/
  | noTarget {ws : List (List Char)} {path : List Char} {f : PathFault} : r.outline = false →
      r.Makes host fresh fs ws → r.target? = some path → host.pathFault? path = some f →
      Unreported r host fresh fs (.target path (.path f))
  /-- A line of the outline cannot be encoded for the output. -/
  | outlineLine {l : Language} {p : Pattern} {before : List (List Char)} {reason : List Char} :
      r.outline = true → r.About host fs l p →
      host.Stops .output (p.root.outline 0) before reason →
      Unreported r host fresh fs (.unwritable reason)
  /-- A word cannot be encoded for the output. -/
  | printedWord {ws before : List (List Char)} {reason : List Char} :
      r.outline = false → r.target? = none → r.Makes host fresh fs ws →
      host.Stops .output ws before reason → Unreported r host fresh fs (.unwritable reason)
  /-- The file for the words is open, and a word cannot be encoded for it. -/
  | addedWord {ws before : List (List Char)} {path reason : List Char} {place : FilePlace}
      {fs₁ : Files} : r.outline = false → r.target? = some path → r.Makes host fresh fs ws →
      host.Opens fs path place fs₁ → host.Stops .file ws before reason →
      Unreported r host fresh fs (.unwritable reason)

variable {r : Request} {host : Host} {fresh : Int} {fs : Files}

theorem Unreported.isReported_eq_false {e : Trouble} (h : r.Unreported host fresh fs e) :
    e.isReported = false := by
  cases h <;> rfl

/-! ### What is not reported is known -/

theorem unreported_of_load {e : LoadError}
    (h : Language.ofFile host.decode r.config (r.content host fs) = .error e)
    (he : e.isReported = false) : r.Unreported host fresh fs (.language e) := by
  obtain h | ⟨d, hd, h⟩ := except_bind_eq_error.mp h
  · simp only [Data.ofFile] at h
    split at h
    · cases h
      cases he
    · rename_i format fault hformat hcontent
      cases h
      cases fault with
      | path f => exact .noConfig (by simp [hformat]) (Host.opened_eq_path_iff.mp hcontent)
      | file f => cases he
    · rename_i format bytes hformat hcontent
      split at h
      · cases h
      · cases h
        cases he
      · rename_i b hdecode
        cases h
        exact .decoder hformat hcontent hdecode
  · split at h
    · cases h
    · rename_i fault hfault
      cases h
      cases fault with
      | vastProductionName => exact .vastKey hd hfault
      | _ => cases he

theorem eq_digits_of_not_isFlaw {e : Refusal} (he : e.isFlaw = false) : ∃ n, e = .digits n := by
  cases e with
  | pattern => cases he
  | digits n => exact ⟨n, rfl⟩

theorem unreported_of_setting {l : Language} {p : Pattern} {seed : Seed} {e : Trouble}
    (habout : r.About host fs l p) (houtline : r.outline = false)
    (h : r.setting l (seed.value fresh) host.ceiling = .error e) (he : e.isReported = false) :
    r.Unreported host fresh fs e := by
  simp only [setting] at h
  split at h
  · rename_i e' hrules
    cases h
    cases e' with
    | refused refusal =>
      obtain ⟨n, rfl⟩ := eq_digits_of_not_isFlaw he
      exact .numeralOfProduction habout houtline (Setting.build_eq_error.mp hrules)
    | cyclic => cases he
  · rename_i hrules hbudget
    cases h
    exact .blankBudget habout houtline (Setting.build_eq_ok.mp hrules).1 hbudget
  · cases h

/-- A batch that breaks the command off has come to bounds that are too wide. -/
theorem unreported_of_words {l : Language} {p : Pattern} {s : Setting} {e : Trouble}
    (hready : r.Ready host fresh fs l p s) (h : r.words s p = .error e)
    (he : e.isReported = false) : r.Unreported host fresh fs e := by
  simp only [words] at h
  split at h
  · rename_i hcount
    cases h
    exact .blankCount hready hcount
  · rename_i count hcount
    split at h
    · cases h
    · rename_i a run hbatch
      cases h
      obtain ⟨hlanguage, hpattern⟩ := hready.about
      obtain ⟨seed, budget, -, -, hs⟩ := hready.setting
      have hbook : Rulebook.build (Definition.ofTexts l.productions) = .ok s.book :=
        (Setting.build_eq_ok.mp hs).1
      have hrounds := hbatch
      rw [s.generateBatch_eq_rounds (Pattern.shaped_root hpattern).isProper] at hrounds
      obtain ⟨run₁, hword⟩ := rounds_eq_error hrounds
      obtain ⟨failure, written⟩ := a
      cases Setting.generate_excused hbook hpattern hword with
      | unknown => cases he
      | tooDeep => cases he
      | tooWide hreach hwide => exact .width hready hcount hbatch hreach hwide

theorem unreported_of_answer {seed : Seed} {told : List (List Char)} {e : Trouble}
    (hseed : r.seed = .value seed)
    (h : r.answer host fresh (r.content host fs) = (told, .error e))
    (he : e.isReported = false) : r.Unreported host fresh fs e := by
  simp only [answer, hseed, subject_eq] at h
  cases hlanguage : Language.ofFile host.decode r.config (r.content host fs) with
  | error e' =>
    simp only [hlanguage] at h
    cases h
    exact unreported_of_load hlanguage he
  | ok l =>
    cases hpattern : Pattern.compile (r.source l) with
    | error refusal =>
      simp only [hlanguage, hpattern] at h
      cases h
      obtain ⟨n, rfl⟩ := eq_digits_of_not_isFlaw he
      exact .numeral hlanguage hpattern
    | ok p =>
      have habout : r.About host fs l p := ⟨hlanguage, hpattern⟩
      cases houtline : r.outline with
      | true =>
        simp only [hlanguage, hpattern, houtline] at h
        cases h
      | false =>
        simp only [hlanguage, hpattern, houtline] at h
        cases hsetting : r.setting l (seed.value fresh) host.ceiling with
        | error e' =>
          simp only [hsetting] at h
          cases h
          exact unreported_of_setting habout houtline hsetting he
        | ok s =>
          simp only [hsetting] at h
          obtain ⟨-, hwords⟩ := Prod.mk.inj h
          obtain ⟨budget, hbudget, hs⟩ := setting_eq_ok hsetting
          exact unreported_of_words ⟨habout, houtline, seed, budget, hseed, hbudget, hs⟩ hwords he

/-- Lines that are wanted are delivered, or a trouble keeps them from it. -/
theorem reports_or_unreported_of_ok {told ls : List (List Char)}
    (h : r.answer host fresh (r.content host fs) = (told, .ok ls)) :
    (r.run host fresh fs).1.Reports ∨
      ∃ e, r.Unreported host fresh fs e ∧ (r.run host fresh fs).1.ending = .broken e := by
  generalize hresult : r.run host fresh fs = result
  have hcourse := course_of_run h
  rw [hresult] at hcourse
  cases hcourse with
  | printed => exact .inl (.inl rfl)
  | printStopped hprints hls =>
    obtain houtline | ⟨houtline, htarget⟩ := hprints
    · obtain ⟨-, l, p, habout, rfl⟩ := answer_eq_ok_of_outline houtline h
      exact .inr ⟨_, .outlineLine houtline habout hls, rfl⟩
    · exact .inr ⟨_, .printedWord houtline htarget (answer_eq_ok houtline h) hls, rfl⟩
  | @unopened path f houtline htarget hopen =>
    obtain hreports | ⟨he, hbroken⟩ := (Trouble.target path f).reports_or_broken told
    · exact .inl hreports
    · cases f with
      | path f =>
        have hpath := Host.opened_eq_path_iff.mp hopen
        exact .inr ⟨_, .noTarget houtline (answer_eq_ok houtline h) htarget hpath, hbroken⟩
      | file f => cases he
  | added => exact .inl (.inl rfl)
  | addStopped houtline htarget hopens hls =>
    exact .inr ⟨_, .addedWord houtline htarget (answer_eq_ok houtline h) hopens hls, rfl⟩

theorem reports_or_unreported (host : Host) (fresh : Int) (fs : Files) {seed : Seed}
    (hseed : r.seed = .value seed) :
    (r.run host fresh fs).1.Reports ∨
      ∃ e, r.Unreported host fresh fs e ∧ (r.run host fresh fs).1.ending = .broken e := by
  cases hanswer : r.answer host fresh (r.content host fs) with
  | mk told answer =>
    cases answer with
    | error e =>
      rw [run_of_error hanswer]
      obtain hreports | ⟨he, hbroken⟩ := e.reports_or_broken told
      · exact .inl hreports
      · exact .inr ⟨e, unreported_of_answer hseed hanswer he, hbroken⟩
    | ok ls => exact reports_or_unreported_of_ok hanswer

/-! ### What is known is not reported -/

theorem ending_of_answer (told : List (List Char)) {e : Trouble}
    (h : r.answer host fresh (r.content host fs) = (told, .error e))
    (he : e.isReported = false) : (r.run host fresh fs).1.ending = .broken e := by
  rw [run_of_error h, Trouble.outcome_of_unreported he]

theorem ofFile_eq_unreadable {fault : OpenFault}
    (hformat : Format.ofSuffix? (Path.suffix r.config) ≠ none)
    (hcontent : r.content host fs = .error fault) :
    Language.ofFile host.decode r.config (r.content host fs) =
      .error (.unreadable (Path.normal r.config) fault) := by
  obtain ⟨format, hformat⟩ := Option.ne_none_iff_exists'.mp hformat
  simp only [Language.ofFile, Data.ofFile, hformat, hcontent]
  rfl

theorem ofFile_eq_broken {format : Format} {bytes : List UInt8} {b : Breakdown}
    (hformat : Format.ofSuffix? (Path.suffix r.config) = some format)
    (hcontent : r.content host fs = .ok bytes)
    (hdecode : host.decode format bytes = .error (.broken b)) :
    Language.ofFile host.decode r.config (r.content host fs) = .error (.broken b) := by
  simp only [Language.ofFile, Data.ofFile, hformat, hcontent, hdecode]
  rfl

theorem ofFile_eq_misshapen {d : Data} {fault : ShapeFault}
    (hd : Data.ofFile host.decode r.config (r.content host fs) = .ok d)
    (hfault : Language.ofData d = .error fault) :
    Language.ofFile host.decode r.config (r.content host fs) =
      .error (.misshapen (Path.normal r.config) fault) := by
  rw [Language.ofFile, hd]
  exact except_bind_eq_error.mpr (.inr ⟨_, rfl, by rw [hfault]; rfl⟩)

theorem answer_of_load {seed : Seed} {e : LoadError} (hseed : r.seed = .value seed)
    (h : Language.ofFile host.decode r.config (r.content host fs) = .error e) :
    r.answer host fresh (r.content host fs) = ([], .error (.language e)) := by
  simp only [answer, hseed, subject_eq, h]

theorem answer_of_outline {seed : Seed} {l : Language} {p : Pattern} (hseed : r.seed = .value seed)
    (habout : r.About host fs l p) (houtline : r.outline = true) :
    r.answer host fresh (r.content host fs) = ([], .ok (p.root.outline 0)) := by
  obtain ⟨hlanguage, hpattern⟩ := habout
  simp only [answer, hseed, subject_eq, hlanguage, hpattern, houtline, if_true]

/-- Words that are made are those that a request which is ready answers with. -/
theorem Makes.answer_eq {ws : List (List Char)} (houtline : r.outline = false)
    (h : r.Makes host fresh fs ws) :
    ∃ told, r.answer host fresh (r.content host fs) = (told, .ok ws) := by
  obtain @⟨l, p, s, seed, count, budget, ws, run, habout, hseed, hcount, hbudget, hs, hbatch⟩ := h
  have hready : r.Ready host fresh fs l p s := ⟨habout, houtline, seed, budget, hseed, hbudget, hs⟩
  have hwords : r.words s p = .ok ws := by
    rw [words, hcount, Language.setting_seed hs]
    simp only [hbatch]
  exact ⟨_, hready.answer_of_words hwords⟩

theorem ending_of_setting {seed : Seed} {l : Language} {p : Pattern} {e : Trouble}
    (hseed : r.seed = .value seed) (habout : r.About host fs l p) (houtline : r.outline = false)
    (h : r.setting l (seed.value fresh) host.ceiling = .error e) (he : e.isReported = false) :
    (r.run host fresh fs).1.ending = .broken e := by
  obtain ⟨hlanguage, hpattern⟩ := habout
  have hanswer : r.answer host fresh (r.content host fs) = ([], .error e) := by
    simp only [answer, hseed, subject_eq, hlanguage, hpattern, houtline, h]
    rfl
  exact ending_of_answer [] hanswer he

theorem Ready.ending_of_words {l : Language} {p : Pattern} {s : Setting} {e : Trouble}
    (hready : r.Ready host fresh fs l p s) (h : r.words s p = .error e)
    (he : e.isReported = false) : (r.run host fresh fs).1.ending = .broken e :=
  ending_of_answer _ (hready.answer_of_words h) he

theorem Unreported.ending_eq {seed : Seed} {e : Trouble} (hseed : r.seed = .value seed)
    (h : r.Unreported host fresh fs e) : (r.run host fresh fs).1.ending = .broken e := by
  have he := h.isReported_eq_false
  cases h with
  | @noConfig f hformat hpath =>
    have hcontent : r.content host fs = .error (.path f) := Host.opened_eq_path_iff.mpr hpath
    exact ending_of_answer [] (answer_of_load hseed (ofFile_eq_unreadable hformat hcontent)) he
  | decoder hformat hcontent hdecode =>
    exact ending_of_answer [] (answer_of_load hseed (ofFile_eq_broken hformat hcontent hdecode)) he
  | vastKey hd hfault =>
    exact ending_of_answer [] (answer_of_load hseed (ofFile_eq_misshapen hd hfault)) he
  | @numeral l n hlanguage hpattern =>
    have hanswer : r.answer host fresh (r.content host fs) =
        ([], .error (.pattern (.digits n))) := by
      simp only [answer, hseed, subject_eq, hlanguage, hpattern]
    exact ending_of_answer [] hanswer he
  | numeralOfProduction habout houtline hbuild =>
    apply ending_of_setting hseed habout houtline _ he
    rw [Request.setting, Language.setting_of_build_error _ _ _ hbuild]
  | blankBudget habout houtline hbuild hbudget =>
    apply ending_of_setting hseed habout houtline _ he
    rw [Request.setting, hbudget, Language.setting_of_build _ _ _ hbuild]
  | blankCount hready hcount =>
    apply hready.ending_of_words _ he
    rw [words, hcount]
  | width hready hcount hbatch =>
    apply hready.ending_of_words _ he
    rw [words, hcount]
    simp only [hbatch]
  | noTarget houtline hmakes htarget hpath =>
    obtain ⟨told, hanswer⟩ := hmakes.answer_eq houtline
    rw [run_of_unopened hanswer houtline htarget (Host.opened_eq_path_iff.mpr hpath),
      Trouble.outcome_of_unreported he]
  | outlineLine houtline habout hls =>
    rw [run_of_print_stopped (answer_of_outline hseed habout houtline) (.inl houtline) hls]
  | printedWord houtline htarget hmakes hls =>
    obtain ⟨told, hanswer⟩ := hmakes.answer_eq houtline
    rw [run_of_print_stopped hanswer (.inr ⟨houtline, htarget⟩) hls]
  | addedWord houtline htarget hmakes hopens hls =>
    obtain ⟨told, hanswer⟩ := hmakes.answer_eq houtline
    obtain ⟨fs', hrun, -⟩ := run_of_add_stopped hanswer houtline htarget hopens hls
    rw [hrun]

end Request

/-- What the command reports. Given arguments that are accepted, it breaks off exactly for one of
the troubles that are not reported, whatever the files hold and wherever it runs. Without any of
them it ends well, or tells what is wrong in the last line of its messages and ends with the status
two. -/
theorem makeWords_reports (host : Host) (fresh : Int) (fs : Files) {args : List (List Char)}
    {r : Request} {seed : Seed} (hargs : Request.ofArguments args = .ok r)
    (hseed : r.seed = .value seed) :
    (∀ e, (makeWords host fresh fs args).1.ending = .broken e ↔ r.Unreported host fresh fs e) ∧
      ((makeWords host fresh fs args).1.Reports ↔ ∀ e, ¬r.Unreported host fresh fs e) := by
  have hrun : makeWords host fresh fs args = r.run host fresh fs := by rw [makeWords, hargs]
  have hnot {e : Trouble} (h : (r.run host fresh fs).1.ending = .broken e) :
      ¬(r.run host fresh fs).1.Reports := by
    simp [Outcome.Reports, h, Ending.status]
  have hcases := Request.reports_or_unreported host fresh fs hseed
  rw [hrun]
  constructor
  · intro e
    constructor
    · intro h
      obtain hreports | ⟨e', he', hbroken⟩ := hcases
      · exact absurd hreports (hnot h)
      · obtain rfl : e' = e := Ending.broken.inj (hbroken.symm.trans h)
        exact he'
    · exact fun h => h.ending_eq hseed
  · constructor
    · exact fun h e he => hnot (he.ending_eq hseed) h
    · intro h
      obtain hreports | ⟨e, he, -⟩ := hcases
      · exact hreports
      · exact absurd he (h e)

/-- A language file that is missing is reported. -/
theorem makeWords_reports_missing :
    let host : Host := ⟨fun _ _ => .error (.malformed []), none, fun _ => StandIn.unencodable?⟩
    let fs : Files := ⟨fun place => place = [], []⟩
    let args : List (List Char) := ["l.toml".toList, "-s1".toList]
    let r : Request :=
      ⟨"l.toml".toList, .value 10, .value (.fixed 1), none, none, .value 200, false⟩
    Request.ofArguments args = .ok r ∧ r.seed = .value (.fixed 1) ∧
      (makeWords host 0 fs args).1 =
        (Trouble.language (.unreadable "l.toml".toList (.file .missing))).outcome [] ∧
      ∀ e, ¬r.Unreported host 0 fs e := by
  intro host fs args r
  have hargs : Request.ofArguments args = .ok r := by rfl
  have hcontent : r.content host fs = .error (.file .missing) := by cbv
  have hformat : Format.ofSuffix? (Path.suffix r.config) ≠ none := by decide
  have hlanguage := Request.ofFile_eq_unreadable hformat hcontent
  have hrun : (makeWords host 0 fs args).1 =
      (Trouble.language (.unreadable "l.toml".toList (.file .missing))).outcome [] := by
    rw [makeWords, hargs]
    exact congrArg Prod.fst (Request.run_of_error (Request.answer_of_load rfl hlanguage))
  have hreports : (makeWords host 0 fs args).1.Reports := by
    rw [hrun]
    exact Trouble.reports_of_reported rfl []
  exact ⟨hargs, rfl, hrun, (makeWords_reports host 0 fs hargs rfl).2.mp hreports⟩

/-- A language file that is no text is not, if the decoder breaks off on it. -/
theorem makeWords_silent_notUtf8 :
    let b : Breakdown := ⟨"UnicodeDecodeError".toList,
      "'utf-8' codec can't decode byte 0xff in position 0: invalid start byte".toList⟩
    let host : Host := ⟨fun _ _ => .error (.broken b), none, fun _ => StandIn.unencodable?⟩
    let fs : Files := ⟨fun place => place = [], [(["l.toml".toList], .file [0xff])]⟩
    let args : List (List Char) := ["l.toml".toList, "--seed=1".toList]
    let r : Request :=
      ⟨"l.toml".toList, .value 10, .value (.fixed 1), none, none, .value 200, false⟩
    Request.ofArguments args = .ok r ∧ r.seed = .value (.fixed 1) ∧
      (makeWords host 0 fs args).1.ending = .broken (.language (.broken b)) ∧
      ¬(makeWords host 0 fs args).1.Reports := by
  intro b host fs args r
  have hargs : Request.ofArguments args = .ok r := by rfl
  have hseed : r.seed = .value (.fixed 1) := rfl
  have hcontent : r.content host fs = .ok [0xff] := by cbv
  have hformat : Format.ofSuffix? (Path.suffix r.config) = some .toml := by cbv
  have hunreported : r.Unreported host 0 fs (.language (.broken b)) :=
    .decoder hformat hcontent rfl
  have hending : (makeWords host 0 fs args).1.ending = .broken (.language (.broken b)) := by
    rw [makeWords, hargs]
    exact hunreported.ending_eq hseed
  refine ⟨hargs, hseed, hending, ?_⟩
  simp [Outcome.Reports, hending, Ending.status]

end Coinage
