import Coinage.Proofs.CommandLine.Printing
import Coinage.Text.StandIn
import Mathlib

/-!
# All or nothing

The command that makes words prints them, or adds them to a file, only when all of them are made. In
trouble nothing is printed and no file is changed, with one exception: whether a word can be encoded
is found out when its turn comes, and then the words before it are out already.
-/

namespace Coinage

namespace Trouble

@[simp] theorem outcome_status (told : List (List Char)) (e : Trouble) :
    (e.outcome told).ending.status ≠ 0 := by
  simp only [outcome]
  split <;> simp [Ending.status]

@[simp]
theorem outcome_output (told : List (List Char)) (e : Trouble) : (e.outcome told).output = [] := by
  simp only [outcome]
  split <;> rfl

end Trouble

theorem Language.setting_seed {l : Language} {seed budget : Int} {ceiling : Option Nat}
    {s : Setting} (h : l.setting seed budget ceiling = .ok s) : s.seed = seed := by
  obtain ⟨book, -, hs⟩ := except_bind_eq_ok.mp h
  cases hs
  rfl

namespace Request

variable {r : Request} {host : Host} {fresh : Int} {fs fs' : Files}

/-- The text of the pattern that a request is about: its own, or that of the language. -/
def source (r : Request) (l : Language) : List Char :=
  match r.pattern with
  | none => l.word
  | some given => given.text

/-- The language is in the file that the request names, and the pattern is the one that the request
is about. -/
structure About (r : Request) (host : Host) (fs : Files) (l : Language) (p : Pattern) : Prop where
  language : Language.ofFile host.decode r.config (r.content host fs) = .ok l
  pattern : Pattern.compile (r.source l) = .ok p

/-- The words are those of one batch, as many as the request asks for, from the pattern that it is
about, in the setting of its language with the seed and the budget that it asks for. -/
inductive Makes (r : Request) (host : Host) (fresh : Int) (fs : Files) : List (List Char) → Prop
  | intro {l : Language} {p : Pattern} {s : Setting} {seed : Seed} {count budget : Int}
      {ws : List (List Char)} {run : Run Twister} :
      r.About host fs l p → r.seed = .value seed → r.count = .value count →
      r.budget = .value budget → l.setting (seed.value fresh) budget host.ceiling = .ok s →
      s.generateBatch p.root count (.start (.ofSeed (seed.value fresh))) = .ok ws run →
      Makes r host fresh fs ws

/-- The word that is announced for a request: its own pattern, or that of the language. -/
def shownWord (r : Request) (l : Language) : List Char :=
  match r.pattern with
  | none => l.word
  | some given => given.shown id

/-- A language is read first, and then a pattern. -/
theorem subject_eq (r : Request) (decode : Decoder) (content : Except OpenFault (List UInt8)) :
    r.subject decode content = match Language.ofFile decode r.config content with
      | .error e => .error (.language e)
      | .ok l =>
        match Pattern.compile (r.source l) with
        | .error e => .error (.pattern e)
        | .ok p => .ok (l, r.shownWord l, p) := by
  simp only [subject, source, shownWord]
  cases Language.ofFile decode r.config content with
  | error e => rfl
  | ok l =>
    cases r.pattern with
    | none =>
      simp only [pure_bind]
      cases Pattern.compile l.word <;> rfl
    | some given =>
      simp only [pure_bind]
      cases Pattern.compile given.text <;> rfl

theorem about_of_subject {l : Language} {word : List Char} {p : Pattern}
    (h : r.subject host.decode (r.content host fs) = .ok (l, word, p)) : r.About host fs l p := by
  rw [subject_eq] at h
  split at h
  · cases h
  · rename_i l' hl
    split at h
    · cases h
    · rename_i p' hp
      cases h
      exact ⟨hl, hp⟩

theorem setting_eq_ok {l : Language} {seed : Int} {ceiling : Option Nat} {s : Setting}
    (h : r.setting l seed ceiling = .ok s) :
    ∃ budget, r.budget = .value budget ∧ l.setting seed budget ceiling = .ok s := by
  simp only [setting] at h
  split at h
  · cases h
  · cases h
  · rename_i s' budget hs hbudget
    cases h
    rw [hbudget] at hs
    exact ⟨budget, hbudget, hs⟩

theorem words_eq_ok {s : Setting} {p : Pattern} {ws : List (List Char)}
    (h : r.words s p = .ok ws) :
    ∃ count run, r.count = .value count ∧
      s.generateBatch p.root count (.start (Twister.ofSeed s.seed)) = .ok ws run := by
  simp only [words] at h
  split at h
  · cases h
  · rename_i count hcount
    split at h
    · rename_i ws' run hbatch
      cases h
      exact ⟨count, run, hcount, hbatch⟩
    · cases h

/-- Lines are wanted once a language and a pattern have been read: those of the outline, or words
that are made in a setting of the language. -/
theorem answer_eq_ok_cases {told ls : List (List Char)}
    (h : r.answer host fresh (r.content host fs) = (told, .ok ls)) :
    ∃ seed l p, r.seed = .value seed ∧ r.About host fs l p ∧
      (r.outline = true ∧ told = [] ∧ ls = p.root.outline 0 ∨
        r.outline = false ∧
          ∃ s, r.setting l (seed.value fresh) host.ceiling = .ok s ∧ r.words s p = .ok ls) := by
  simp only [answer] at h
  split at h
  · cases h
  · rename_i seed hseed
    split at h
    · cases h
    · rename_i l word p hsubject
      have habout := about_of_subject hsubject
      cases houtline : r.outline with
      | true =>
        rw [if_pos houtline] at h
        cases h
        exact ⟨seed, l, p, hseed, habout, .inl ⟨rfl, rfl, rfl⟩⟩
      | false =>
        rw [if_neg (by simp [houtline])] at h
        split at h
        · cases h
        · rename_i s hsetting
          obtain ⟨-, hwords⟩ := Prod.mk.inj h
          exact ⟨seed, l, p, hseed, habout, .inr ⟨rfl, s, hsetting, hwords⟩⟩

/-- The lines of an outline are told with no word about the making of words. -/
theorem answer_eq_ok_of_outline {told ls : List (List Char)} (houtline : r.outline = true)
    (h : r.answer host fresh (r.content host fs) = (told, .ok ls)) :
    told = [] ∧ ∃ l p, r.About host fs l p ∧ ls = p.root.outline 0 := by
  obtain ⟨seed, l, p, -, habout, ⟨-, htold, hls⟩ | ⟨hnot, -⟩⟩ := answer_eq_ok_cases h
  · exact ⟨htold, l, p, habout, hls⟩
  · simp [houtline] at hnot

theorem answer_eq_ok {told ls : List (List Char)} (houtline : r.outline = false)
    (h : r.answer host fresh (r.content host fs) = (told, .ok ls)) : r.Makes host fresh fs ls := by
  obtain ⟨seed, l, p, hseed, habout, ⟨hnot, -⟩ | ⟨-, s, hsetting, hwords⟩⟩ := answer_eq_ok_cases h
  · simp [houtline] at hnot
  · obtain ⟨budget, hbudget, hs⟩ := setting_eq_ok hsetting
    obtain ⟨count, run, hcount, hbatch⟩ := words_eq_ok hwords
    rw [Language.setting_seed hs] at hbatch
    exact .intro habout hseed hcount hbudget hs hbatch

/-- The request is so far that its words can be made: what it is about has been read, and its
setting has been built. -/
structure Ready (r : Request) (host : Host) (fresh : Int) (fs : Files) (l : Language) (p : Pattern)
    (s : Setting) : Prop where
  about : r.About host fs l p
  noOutline : r.outline = false
  setting : ∃ seed budget, r.seed = .value seed ∧ r.budget = .value budget ∧
    l.setting (seed.value fresh) budget host.ceiling = .ok s

/-- Then the words are announced with their seed, and made. -/
theorem Ready.answer_eq {l : Language} {p : Pattern} {s : Setting}
    (h : r.Ready host fresh fs l p s) :
    r.answer host fresh (r.content host fs) =
      (r.announcement l (r.shownWord l) s.seed, r.words s p) := by
  obtain ⟨⟨hlanguage, hpattern⟩, houtline, seed, budget, hseed, hbudget, hs⟩ := h
  have hsetting : r.setting l (seed.value fresh) host.ceiling = .ok s := by
    simp only [Request.setting, hbudget, hs]
  simp only [answer, hseed, subject_eq, hlanguage, hpattern, houtline, hsetting,
    Language.setting_seed hs]
  rfl

theorem Ready.answer_of_words {l : Language} {p : Pattern} {s : Setting}
    {result : Except Trouble (List (List Char))} (h : r.Ready host fresh fs l p s)
    (hwords : r.words s p = result) :
    r.answer host fresh (r.content host fs) =
      (r.announcement l (r.shownWord l) s.seed, result) := by
  rw [h.answer_eq, hwords]

theorem target_of_target?_eq_none (h : r.target? = none) :
    r.target = none ∨ r.target = some [] := by
  cases htarget : r.target with
  | none => exact .inl rfl
  | some path =>
    have hpath : path = [] := by simpa [target?, htarget] using h
    exact .inr (congrArg some hpath)

theorem target_of_target?_eq_some {path : List Char} (h : r.target? = some path) :
    r.target = some path ∧ path ≠ [] := by
  obtain ⟨htarget, hpath⟩ := Option.filter_eq_some_iff.mp h
  exact ⟨htarget, by simpa using hpath⟩

/-- What a request leaves behind that is met: the outline of its pattern and no message, or the
lines of its words, as output or at the end of the file that it names. -/
inductive Fulfilled (r : Request) (host : Host) (fresh : Int) (fs : Files) :
    Outcome Trouble → Files → Prop
  | outlined {l : Language} {p : Pattern} :
      r.outline = true → r.About host fs l p →
      Fulfilled r host fresh fs ⟨.success, lines (p.root.outline 0), []⟩ fs
  | written {ws : List (List Char)} {told : List Char} :
      r.outline = false → r.target = none ∨ r.target = some [] → r.Makes host fresh fs ws →
      Fulfilled r host fresh fs ⟨.success, lines ws, told⟩ fs
  | added {ws : List (List Char)} {told path : List Char} {place : FilePlace} {fs' : Files} :
      r.outline = false → r.target = some path → path ≠ [] → r.Makes host fresh fs ws →
      fs.Added path place (bytesOfText (lines ws)) fs' →
      Fulfilled r host fresh fs ⟨.success, [], told⟩ fs'

/-- What a request leaves behind of which some lines cannot be encoded: those in front of the first
of them, and a file at the place for the words, if they have one. -/
inductive CutShort (r : Request) (host : Host) (fresh : Int) (fs : Files) (reason : List Char) :
    Outcome Trouble → Files → Prop
  | outlined {l : Language} {p : Pattern} {before : List (List Char)} :
      r.outline = true → r.About host fs l p →
      host.Stops .output (p.root.outline 0) before reason →
      CutShort r host fresh fs reason ⟨.broken (.unwritable reason), lines before, []⟩ fs
  | written {ws before : List (List Char)} {told : List Char} :
      r.outline = false → r.target = none ∨ r.target = some [] → r.Makes host fresh fs ws →
      host.Stops .output ws before reason →
      CutShort r host fresh fs reason ⟨.broken (.unwritable reason), lines before, told⟩ fs
  | added {ws before : List (List Char)} {told path : List Char} {place : FilePlace} {fs' : Files} :
      r.outline = false → r.target = some path → path ≠ [] → r.Makes host fresh fs ws →
      host.Stops .file ws before reason → fs.Added path place (bytesOfText (lines before)) fs' →
      CutShort r host fresh fs reason ⟨.broken (.unwritable reason), [], told⟩ fs'

/-- A request is met or cut short, or it ends in trouble with nothing done. -/
theorem met_or_cutShort_or_nothing_done {o : Outcome Trouble}
    (h : r.run host fresh fs = (o, fs')) :
    (r.Fulfilled host fresh fs o fs' ∨ ∃ reason, r.CutShort host fresh fs reason o fs') ∨
      ∃ (e : Trouble) (told : List (List Char)), o = e.outcome told ∧ fs' = fs := by
  cases hanswer : r.answer host fresh (r.content host fs) with
  | mk told answer =>
    cases answer with
    | error e =>
      cases h.symm.trans (run_of_error hanswer)
      exact .inr ⟨e, told, rfl, rfl⟩
    | ok ls =>
      have hcourse := course_of_run hanswer
      rw [h] at hcourse
      cases hcourse with
      | printed hprints hls =>
        obtain houtline | ⟨houtline, htarget⟩ := hprints
        · obtain ⟨rfl, l, p, habout, rfl⟩ := answer_eq_ok_of_outline houtline hanswer
          exact .inl (.inl (.outlined houtline habout))
        · have hnone := target_of_target?_eq_none htarget
          exact .inl (.inl (.written houtline hnone (answer_eq_ok houtline hanswer)))
      | @printStopped before reason hprints hls =>
        refine .inl (.inr ⟨reason, ?_⟩)
        obtain houtline | ⟨houtline, htarget⟩ := hprints
        · obtain ⟨rfl, l, p, habout, rfl⟩ := answer_eq_ok_of_outline houtline hanswer
          exact .outlined houtline habout hls
        · have hnone := target_of_target?_eq_none htarget
          exact .written houtline hnone (answer_eq_ok houtline hanswer) hls
      | unopened => exact .inr ⟨_, told, rfl, rfl⟩
      | added houtline htarget _ _ hadded =>
        obtain ⟨hsome, hne⟩ := target_of_target?_eq_some htarget
        exact .inl (.inl (.added houtline hsome hne (answer_eq_ok houtline hanswer) hadded))
      | addStopped houtline htarget _ hls hadded =>
        obtain ⟨hsome, hne⟩ := target_of_target?_eq_some htarget
        have hmakes := answer_eq_ok houtline hanswer
        exact .inl (.inr ⟨_, .added houtline hsome hne hmakes hls hadded⟩)

theorem Fulfilled.status_eq_zero {o : Outcome Trouble} (h : r.Fulfilled host fresh fs o fs') :
    o.ending.status = 0 := by
  cases h <;> rfl

theorem CutShort.ending_eq {reason : List Char} {o : Outcome Trouble}
    (h : r.CutShort host fresh fs reason o fs') : o.ending = .broken (.unwritable reason) := by
  cases h <;> rfl

/-- Only what cannot be encoded cuts a request short. -/
theorem CutShort.exists_unencodable {reason : List Char} {o : Outcome Trouble}
    (h : r.CutShort host fresh fs reason o fs') :
    ∃ medium l, host.unencodable? medium l = some reason := by
  cases h with
  | outlined _ _ hls | written _ _ _ hls | added _ _ _ _ hls =>
    obtain ⟨line, after, -, -, hline⟩ := hls
    exact ⟨_, line, hline⟩

end Request

/-- The command that makes words does all or nothing, but for words that cannot be encoded. Unless
the user asks for help, a run that does not end well has printed nothing and changed no file,
wherever it went wrong, or it was cut short: then the words, or the lines of an outline, in front of
the first one that cannot be encoded are printed or added, and nothing else is done. A run that ends
well has met the request that its arguments make. -/
theorem makeWords_all_or_nothing (host : Host) (fresh : Int) (fs : Files) {args : List (List Char)}
    (hhelp : Request.ofArguments args ≠ .error .help) {o : Outcome Trouble} {fs' : Files}
    (h : makeWords host fresh fs args = (o, fs')) :
    (o.ending.status ≠ 0 → o.output = [] ∧ fs' = fs ∨
      ∃ r reason, Request.ofArguments args = .ok r ∧ r.CutShort host fresh fs reason o fs') ∧
    (o.ending.status = 0 →
      ∃ r, Request.ofArguments args = .ok r ∧ r.Fulfilled host fresh fs o fs') ∧
    ((∀ medium l, host.unencodable? medium l = none) → o.ending.status ≠ 0 →
      o.output = [] ∧ fs' = fs) := by
  suffices hcases : (∃ r, Request.ofArguments args = .ok r ∧
      (r.Fulfilled host fresh fs o fs' ∨ ∃ reason, r.CutShort host fresh fs reason o fs')) ∨
      o.ending.status ≠ 0 ∧ o.output = [] ∧ fs' = fs by
    obtain ⟨r, hargs, hmet | ⟨reason, hcut⟩⟩ | ⟨hstatus, hnothing⟩ := hcases
    · have hzero := hmet.status_eq_zero
      exact ⟨fun hstatus => absurd hzero hstatus, fun _ => ⟨r, hargs, hmet⟩,
        fun _ hstatus => absurd hzero hstatus⟩
    · refine ⟨fun _ => .inr ⟨r, reason, hargs, hcut⟩, fun hzero => ?_, fun hall => ?_⟩
      · simp [hcut.ending_eq, Ending.status] at hzero
      · obtain ⟨medium, l, hl⟩ := hcut.exists_unencodable
        simp [hall medium l] at hl
    · exact ⟨fun _ => .inl hnothing, fun hzero => absurd hzero hstatus, fun _ _ => hnothing⟩
  rw [makeWords] at h
  cases hargs : Request.ofArguments args with
  | error d =>
    rw [hargs] at h
    cases h
    cases d with
    | help => exact absurd hargs hhelp
    | misused m => exact .inr ⟨Nat.succ_ne_zero 1, rfl, rfl⟩
  | ok r =>
    rw [hargs] at h
    change r.run host fresh fs = (o, fs') at h
    obtain hmet | ⟨e, told, rfl, rfl⟩ := Request.met_or_cutShort_or_nothing_done h
    · exact .inl ⟨r, rfl, hmet⟩
    · exact .inr ⟨e.outcome_status told, e.outcome_output told, rfl⟩

/-- Two words of one letter, added behind the line that the file holds. -/
theorem makeWords_all_or_nothing_added :
    let host : Host := ⟨fun _ _ => .ok (.mapping [(.text "word".toList, .text ['a'])]), none,
      fun _ => StandIn.unencodable?⟩
    let fs : Files := ⟨fun place => place = [],
      [(["l.toml".toList], .file (bytesOfText "word='a'".toList)),
        (["out".toList], .file (bytesOfText "b\n".toList))]⟩
    let args : List (List Char) :=
      ["l.toml".toList, "-c".toList, "2".toList, "-o".toList, "out".toList]
    let o : Outcome Trouble := ⟨.success, [],
      "Generating 2 words of language `` using pattern `a`\nseed: 7\n".toList⟩
    let fs' : Files := ⟨fun place => place = [],
      [(["l.toml".toList], .file (bytesOfText "word='a'".toList)),
        (["out".toList], .file (bytesOfText "b\na\na\n".toList))]⟩
    Request.ofArguments args ≠ .error .help ∧ makeWords host 7 fs args = (o, fs') ∧
      ∃ r, Request.ofArguments args = .ok r ∧ r.Fulfilled host 7 fs o fs' := by
  intro host fs args o fs'
  let r : Request := ⟨"l.toml".toList, .value 2, .value .fresh, some "out".toList, none,
    .value 200, false⟩
  let s : Setting := ⟨7, ⟨[], []⟩, 200, none⟩
  let l : Language := ⟨[], ['a'], []⟩
  let p : Pattern := ⟨['a'], .sequence [.particle ['a'] .once] .once⟩
  have hargs : Request.ofArguments args = .ok r := by rfl
  have habout : r.About host fs l p := ⟨by cbv, by cbv⟩
  have hready : r.Ready host 7 fs l p s := ⟨habout, rfl, .fresh, 200, rfl, rfl, by cbv⟩
  have hbatch : s.generateBatch p.root 2 (.start (Twister.ofSeed 7)) =
      .ok [['a'], ['a']] ⟨.ofSeed 7, #['a']⟩ := by rfl
  have hwords : r.words s p = .ok [['a'], ['a']] := by
    rw [Request.words]
    simp only [r, s, hbatch]
  have hanswer := hready.answer_of_words hwords
  have htold : lines (r.announcement l (r.shownWord l) s.seed) = o.messages := by cbv
  have hdeliver : r.deliver host.system [['a'], ['a']] ⟨[], o.messages, fs⟩ =
      .ok [] ⟨[], o.messages, fs'⟩ := by rfl
  have hguarded : r.guarded host host.system 7 ⟨[], [], fs⟩ = .ok [] ⟨[], o.messages, fs'⟩ := by
    rw [Request.guarded_of_ok hanswer, htold, hdeliver]
  have hrun : makeWords host 7 fs args = (o, fs') := by
    simp only [makeWords, hargs, Request.run, Request.carryOut_of_ok hguarded]
    rfl
  have hhelp : Request.ofArguments args ≠ .error .help := by simp [hargs]
  exact ⟨hhelp, hrun, (makeWords_all_or_nothing host 7 fs hhelp hrun).2.1 rfl⟩

/-- The only word is one half of a pair of code units: the file for the words is made, and no word
is added to it. -/
theorem makeWords_leaves_empty_file :
    let half : List Char := [StandIn.ofHalf 0xd800]
    let host : Host := ⟨fun _ _ => .ok (.mapping [(.text "word".toList, .text "$a".toList),
      (.text "productions".toList, .mapping [(.text ['a'], .text half)])]), none,
      fun _ => StandIn.unencodable?⟩
    let fs : Files := ⟨fun place => place = [], [(["l.yml".toList],
      .file (bytesOfText "word: $a\nproductions:\n  a: \"\\ud800\"\n".toList))]⟩
    let args : List (List Char) :=
      ["l.yml".toList, "--count=1".toList, "--seed=1".toList, "--output=out".toList]
    let reason : List Char := "'utf-8' codec can't encode character '\\ud800' in position 0: ".toList
      ++ "surrogates not allowed".toList
    Request.ofArguments args ≠ .error .help ∧
      ∃ o fs', makeWords host 0 fs args = (o, fs') ∧ o.ending = .broken (.unwritable reason) ∧
        o.ending.status ≠ 0 ∧ fs.read "out".toList = .error .missing ∧
        fs'.read "out".toList = .ok [] := by
  intro half host fs args reason
  let r : Request := ⟨"l.yml".toList, .value 1, .value (.fixed 1), some "out".toList, none,
    .value 200, false⟩
  let l : Language := ⟨[], "$a".toList, [(['a'], half)]⟩
  let p : Pattern := ⟨"$a".toList, .sequence [.reference ['a'] .once none] .once⟩
  let s : Setting := ⟨1, ⟨[['a']], [.sequence [.particle half .once] .once]⟩, 200, none⟩
  have hargs : Request.ofArguments args = .ok r := by rfl
  have habout : r.About host fs l p := ⟨by cbv, by cbv⟩
  have hready : r.Ready host 0 fs l p s := ⟨habout, rfl, .fixed 1, 200, rfl, rfl, by cbv⟩
  have hbatch : s.generateBatch p.root 1 (.start (Twister.ofSeed 1)) =
      .ok [half] ⟨.ofSeed 1, half.toArray⟩ := by rfl
  have hwords : r.words s p = .ok [half] := by
    rw [Request.words]
    simp only [r, s, hbatch]
  have hanswer := hready.answer_of_words hwords
  have hhalf : StandIn.unencodable? half = some reason := by cbv
  have hstops : host.Stops .file [half] [] reason := ⟨half, [], rfl, Host.encodes_nil, hhalf⟩
  have hopens : host.Opens fs "out".toList ["out".toList] (fs.put ["out".toList] (.file [])) := by
    rfl
  obtain ⟨fs', hrun, hadded⟩ := Request.run_of_add_stopped hanswer rfl rfl hopens hstops
  have hmissing : fs.read "out".toList = .error .missing := by rfl
  obtain ⟨old, hold | ⟨-, rfl⟩, hread⟩ := hadded.more
  · cases hmissing.symm.trans hold
  · have hmake : makeWords host 0 fs args =
        (⟨.broken (.unwritable reason), [], lines (r.announcement l (r.shownWord l) s.seed)⟩,
          fs') := by
      rw [makeWords, hargs]
      exact hrun
    exact ⟨by simp [hargs], _, fs', hmake, rfl, by decide, hmissing, hread⟩

end Coinage
