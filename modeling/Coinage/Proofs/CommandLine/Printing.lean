import Coinage.CommandLine.MakeWords
import Coinage.Proofs.Config.Files
import Mathlib

/-!
# Line by line

Lines are printed, and added to files, one after the other. The first one that cannot be encoded
ends the run, and the lines before it stay where they are. From this follows what a request leaves
behind, for each way that it can go.
-/

namespace Coinage

variable {host : Host} {medium : Medium} {w : World} {ls before : List (List Char)}
  {reason : List Char}

namespace World

@[simp] theorem foldl_print (ls : List (List Char)) (w : World) :
    ls.foldl (fun w l => w.print l) w = { w with output := w.output ++ lines ls } := by
  induction ls generalizing w with
  | nil => simp
  | cons l ls ih =>
    rw [List.foldl_cons, ih]
    simp [print]

/-- What is added to a file stays added when more is added. -/
theorem added_foldl_add {path : List Char} {place : FilePlace} {fs : Files} {content : List UInt8}
    (h : fs.Added path place content w.files) (ls : List (List Char)) :
    ∃ fs', ls.foldl (fun w l => w.add place l) w = { w with files := fs' } ∧
      fs.Added path place (content ++ bytesOfText (lines ls)) fs' := by
  induction ls generalizing w content with
  | nil => exact ⟨w.files, rfl, by simpa using h⟩
  | cons l ls ih =>
    obtain ⟨fs', hfold, hadded⟩ := ih (w := w.add place l) (h.add (bytesOfText (l ++ ['\n'])))
    refine ⟨fs', hfold, ?_⟩
    rw [List.append_assoc, ← bytesOfText_append] at hadded
    simpa using hadded

end World

namespace Host

def Encodes (host : Host) (medium : Medium) (ls : List (List Char)) : Prop :=
  ∀ l ∈ ls, host.unencodable? medium l = none

@[simp] theorem encodes_nil : host.Encodes medium [] := nofun

@[simp] theorem encodes_cons {l : List Char} :
    host.Encodes medium (l :: ls) ↔
      host.unencodable? medium l = none ∧ host.Encodes medium ls :=
  List.forall_mem_cons

/-- The lines `before` come in front of the first one that cannot be encoded. -/
def Stops (host : Host) (medium : Medium) (ls before : List (List Char)) (reason : List Char) :
    Prop :=
  ∃ line after, ls = before ++ line :: after ∧ host.Encodes medium before ∧
    host.unencodable? medium line = some reason

theorem encodes_or_stops (host : Host) (medium : Medium) (ls : List (List Char)) :
    host.Encodes medium ls ∨ ∃ before reason, host.Stops medium ls before reason := by
  induction ls with
  | nil => exact .inl encodes_nil
  | cons l ls ih =>
    cases hl : host.unencodable? medium l with
    | some reason => exact .inr ⟨[], reason, l, ls, rfl, encodes_nil, hl⟩
    | none =>
      obtain hls | ⟨before, reason, line, after, rfl, hbefore, hline⟩ := ih
      · exact .inl (encodes_cons.mpr ⟨hl, hls⟩)
      · exact .inr ⟨l :: before, reason, line, after, rfl, encodes_cons.mpr ⟨hl, hbefore⟩, hline⟩

variable {put : List Char → World → World}

@[simp]
theorem write_of_encodable {l : List Char} (h : host.unencodable? medium l = none) (w : World) :
    host.write medium put l w = .ok () (put l w) := by
  rw [write, h]

@[simp] theorem write_of_unencodable {l : List Char} (h : host.unencodable? medium l = some reason)
    (w : World) : host.write medium put l w = .error (.unwritable reason) w := by
  rw [write, h]

/-- Lines in front of others are put where they belong before anything else is done. -/
theorem forM_write_append (h : host.Encodes medium before) (w : World) :
    (before ++ ls).forM (host.write medium put) w =
      ls.forM (host.write medium put) (before.foldl (fun w l => put l w) w) := by
  induction before generalizing w with
  | nil => rfl
  | cons l before ih =>
    obtain ⟨hl, hbefore⟩ := encodes_cons.mp h
    rw [List.foldl_cons, ← ih hbefore]
    exact stateM_bind_of_ok (write_of_encodable hl w) _

theorem forM_write (h : host.Encodes medium ls) (w : World) :
    ls.forM (host.write medium put) w = .ok () (ls.foldl (fun w l => put l w) w) := by
  have hall : (ls ++ []).forM (host.write medium put) w =
      .ok () (ls.foldl (fun w l => put l w) w) := forM_write_append h w
  rwa [List.append_nil] at hall

theorem forM_write_of_stops (h : host.Stops medium ls before reason) (w : World) :
    ls.forM (host.write medium put) w =
      .error (.unwritable reason) (before.foldl (fun w l => put l w) w) := by
  obtain ⟨line, after, rfl, hbefore, hline⟩ := h
  rw [forM_write_append hbefore]
  exact stateM_bind_of_error (write_of_unencodable hline _) _

/-! ### The steps of the system -/

@[simp] theorem system_read (path : List Char) (w : World) :
    host.system.read path w = .ok (host.opened path (w.files.read path)) w := rfl

@[simp] theorem system_tell (line : List Char) (w : World) :
    host.system.tell line w = .ok () (w.tell line) := rfl

@[simp] theorem forM_tell (told : List (List Char)) (w : World) :
    told.forM host.system.tell w = .ok () { w with messages := w.messages ++ lines told } := by
  induction told generalizing w with
  | nil =>
    rw [lines_nil, List.append_nil]
    rfl
  | cons l told ih =>
    apply (stateM_bind_of_ok (host.system_tell l w) _).trans
    rw [ih]
    simp [World.tell]

theorem forM_print (h : host.Encodes .output ls) (w : World) :
    ls.forM host.system.print w = .ok () { w with output := w.output ++ lines ls } := by
  rw [← World.foldl_print]
  exact forM_write h w

theorem forM_print_of_stops (h : host.Stops .output ls before reason) (w : World) :
    ls.forM host.system.print w =
      .error (.unwritable reason) { w with output := w.output ++ lines before } := by
  rw [← World.foldl_print]
  exact forM_write_of_stops h w

variable {α : Type} {path : List Char} {place : FilePlace} {fs fs₁ : Files}

@[simp] theorem opened_eq_ok {result : Except FileFault α} {a : α} :
    host.opened path result = .ok a ↔ host.pathFault? path = none ∧ result = .ok a := by
  cases hpath : host.pathFault? path with
  | some f => simp [opened, hpath]
  | none => cases result <;> simp [opened, hpath, Except.mapError]

/-- Whatever may come of opening a file, a text that is no path is refused first. -/
@[simp] theorem opened_eq_path_iff {result : Except FileFault α} {f : PathFault} :
    host.opened path result = .error (.path f) ↔ host.pathFault? path = some f := by
  cases hpath : host.pathFault? path with
  | some f => simp [opened, hpath]
  | none => cases result <;> simp [opened, hpath, Except.mapError]

/-- Opening the file at the path, which is done without a fault. -/
def Opens (host : Host) (fs : Files) (path : List Char) (place : FilePlace) (fs₁ : Files) : Prop :=
  host.opened path (fs.openToAdd path) = .ok (place, fs₁)

theorem Opens.added (h : host.Opens fs path place fs₁) : fs.Added path place [] fs₁ :=
  Files.added_of_openToAdd (opened_eq_ok.mp h).2

theorem Opens.system_openToAdd (h : host.Opens fs path place fs₁) (told : List Char) :
    host.system.openToAdd path ⟨[], told, fs⟩ = .ok place ⟨[], told, fs₁⟩ := by
  simp only [system]
  rw [h]

theorem Opens.forM_add (h : host.Opens fs path place fs₁) (hls : host.Encodes .file ls)
    (told : List Char) :
    ∃ fs', ls.forM (host.system.add place) ⟨[], told, fs₁⟩ = .ok () ⟨[], told, fs'⟩ ∧
      fs.Added path place (bytesOfText (lines ls)) fs' := by
  obtain ⟨fs', hfold, hadded⟩ := World.added_foldl_add (w := ⟨[], told, fs₁⟩) h.added ls
  exact ⟨fs', (forM_write hls _).trans (congrArg _ hfold), hadded⟩

theorem Opens.forM_add_of_stops (h : host.Opens fs path place fs₁)
    (hls : host.Stops .file ls before reason) (told : List Char) :
    ∃ fs', ls.forM (host.system.add place) ⟨[], told, fs₁⟩ =
        .error (.unwritable reason) ⟨[], told, fs'⟩ ∧
      fs.Added path place (bytesOfText (lines before)) fs' := by
  obtain ⟨fs', hfold, hadded⟩ := World.added_foldl_add (w := ⟨[], told, fs₁⟩) h.added before
  exact ⟨fs', (forM_write_of_stops hls _).trans (congrArg _ hfold), hadded⟩

end Host

/-- What a trouble leaves behind that comes up before any line is wanted. -/
def Trouble.outcome (told : List (List Char)) (e : Trouble) : Outcome Trouble :=
  if e.isReported then ⟨.failure, [], lines (told ++ ["wordgen error: ".toList ++ e.message])⟩
  else ⟨.broken e, [], lines told⟩

namespace Request

variable {r : Request} {fresh : Int} {fs fs₁ : Files} {told : List (List Char)} {e : Trouble}

/-- What comes of reading the language file of a request. -/
def content (r : Request) (host : Host) (fs : Files) : Except OpenFault (List UInt8) :=
  host.opened (Path.normal r.config) (fs.read (Path.normal r.config))

/-! ### What is done where troubles are reported -/

theorem guarded_of_answer {result : Except Trouble (List (List Char))}
    (h : r.answer host fresh (r.content host fs) = (told, result)) :
    r.guarded host host.system fresh ⟨[], [], fs⟩ =
      (MonadExcept.ofExcept result >>= r.deliver host.system : Job (List (List Char)))
        ⟨[], lines told, fs⟩ := by
  rw [content] at h
  rw [guarded, stateM_bind_of_ok (host.system_read _ _)]
  simp only [h]
  rw [stateM_bind_of_ok (host.forM_tell told _)]
  rfl

/-! ### What is done with a trouble, and with lines that are left -/

theorem carryOut_of_ok {w' : World} (h : r.guarded host host.system fresh w = .ok ls w') :
    r.carryOut host host.system fresh w =
      (do ls.forM host.system.print; return .success : Job (Ending Trouble)) w' := by
  rw [carryOut, stateM_bind_of_ok (stateM_tryCatch_of_ok h some _)]

theorem carryOut_of_error {w' : World} (h : r.guarded host host.system fresh w = .error e w') :
    r.carryOut host host.system fresh w =
      if e.isReported then .ok .failure (w'.tell ("wordgen error: ".toList ++ e.message))
      else .error e w' := by
  have hcatch := stateM_tryCatch_of_error h some fun e => do
    report host.system e
    return none
  cases he : e.isReported with
  | true =>
    have htell : report host.system e w' =
        .ok () (w'.tell ("wordgen error: ".toList ++ e.message)) := by
      rw [report, if_pos he, host.system_tell]
    rw [stateM_bind_of_ok htell] at hcatch
    rw [carryOut, stateM_bind_of_ok hcatch]
    rfl
  | false =>
    have hthrow : report host.system e w' = .error e w' := by
      rw [report, if_neg (by simp [he])]
      rfl
    rw [stateM_bind_of_error hthrow] at hcatch
    rw [carryOut, stateM_bind_of_error hcatch]
    rfl

/-! ### What is left behind -/

theorem run_of_guarded_error
    (h : r.guarded host host.system fresh ⟨[], [], fs⟩ = .error e ⟨[], lines told, fs⟩) :
    r.run host fresh fs = (e.outcome told, fs) := by
  rw [run, carryOut_of_error h, Trouble.outcome]
  split
  · simp [leaves, World.tell]
  · rfl

theorem run_of_error (h : r.answer host fresh (r.content host fs) = (told, .error e)) :
    r.run host fresh fs = (e.outcome told, fs) :=
  run_of_guarded_error (guarded_of_answer h)

theorem guarded_of_ok (h : r.answer host fresh (r.content host fs) = (told, .ok ls)) :
    r.guarded host host.system fresh ⟨[], [], fs⟩ =
      r.deliver host.system ls ⟨[], lines told, fs⟩ :=
  guarded_of_answer h

/-- The lines of an outline are printed, and so are words for which there is no file. -/
def Prints (r : Request) : Prop := r.outline = true ∨ r.outline = false ∧ r.target? = none

theorem run_of_printed (h : r.answer host fresh (r.content host fs) = (told, .ok ls))
    (hprints : r.Prints) (hls : host.Encodes .output ls) :
    r.run host fresh fs = (⟨.success, lines ls, lines told⟩, fs) := by
  have hguarded := guarded_of_ok h
  obtain houtline | ⟨houtline, htarget⟩ := hprints
  · rw [deliver, if_pos houtline, stateM_bind_of_ok (Host.forM_print hls _)] at hguarded
    rw [run, carryOut_of_ok hguarded]
    rfl
  · rw [deliver, if_neg (by simp [houtline]), htarget] at hguarded
    rw [run, carryOut_of_ok hguarded, stateM_bind_of_ok (Host.forM_print hls _)]
    rfl

theorem run_of_print_stopped (h : r.answer host fresh (r.content host fs) = (told, .ok ls))
    (hprints : r.Prints) (hls : host.Stops .output ls before reason) :
    r.run host fresh fs = (⟨.broken (.unwritable reason), lines before, lines told⟩, fs) := by
  have hguarded := guarded_of_ok h
  obtain houtline | ⟨houtline, htarget⟩ := hprints
  · rw [deliver, if_pos houtline, stateM_bind_of_error (Host.forM_print_of_stops hls _)]
      at hguarded
    rw [run, carryOut_of_error hguarded]
    rfl
  · rw [deliver, if_neg (by simp [houtline]), htarget] at hguarded
    rw [run, carryOut_of_ok hguarded, stateM_bind_of_error (Host.forM_print_of_stops hls _)]
    rfl

variable {path : List Char} {place : FilePlace}

/-- Words for which there is a file are added to it. -/
theorem deliver_of_target (houtline : r.outline = false) (htarget : r.target? = some path) :
    r.deliver host.system ls = do
      let file ← host.system.openToAdd path
      ls.forM (host.system.add file)
      return [] := by
  rw [deliver, if_neg (by simp [houtline]), htarget]

theorem run_of_unopened {f : OpenFault}
    (h : r.answer host fresh (r.content host fs) = (told, .ok ls)) (houtline : r.outline = false)
    (htarget : r.target? = some path) (hopen : host.opened path (fs.openToAdd path) = .error f) :
    r.run host fresh fs = ((Trouble.target path f).outcome told, fs) := by
  have hsystem : host.system.openToAdd path ⟨[], lines told, fs⟩ =
      .error (.target path f) ⟨[], lines told, fs⟩ := by
    simp only [Host.system, hopen]
  have hguarded := guarded_of_ok h
  rw [deliver_of_target houtline htarget, stateM_bind_of_error hsystem] at hguarded
  exact run_of_guarded_error hguarded

theorem run_of_added (h : r.answer host fresh (r.content host fs) = (told, .ok ls))
    (houtline : r.outline = false) (htarget : r.target? = some path)
    (hopens : host.Opens fs path place fs₁) (hls : host.Encodes .file ls) :
    ∃ fs', r.run host fresh fs = (⟨.success, [], lines told⟩, fs') ∧
      fs.Added path place (bytesOfText (lines ls)) fs' := by
  obtain ⟨fs', hadd, hadded⟩ := hopens.forM_add hls (lines told)
  have hguarded := guarded_of_ok h
  rw [deliver_of_target houtline htarget, stateM_bind_of_ok (hopens.system_openToAdd _),
    stateM_bind_of_ok hadd] at hguarded
  refine ⟨fs', ?_, hadded⟩
  rw [run, carryOut_of_ok hguarded]
  rfl

theorem run_of_add_stopped (h : r.answer host fresh (r.content host fs) = (told, .ok ls))
    (houtline : r.outline = false) (htarget : r.target? = some path)
    (hopens : host.Opens fs path place fs₁) (hls : host.Stops .file ls before reason) :
    ∃ fs', r.run host fresh fs = (⟨.broken (.unwritable reason), [], lines told⟩, fs') ∧
      fs.Added path place (bytesOfText (lines before)) fs' := by
  obtain ⟨fs', hadd, hadded⟩ := hopens.forM_add_of_stops hls (lines told)
  have hguarded := guarded_of_ok h
  rw [deliver_of_target houtline htarget, stateM_bind_of_ok (hopens.system_openToAdd _),
    stateM_bind_of_error hadd] at hguarded
  refine ⟨fs', ?_, hadded⟩
  rw [run, carryOut_of_error hguarded]
  rfl

/-- What becomes of lines that are wanted: the ways that a run can go from there. -/
inductive Course (r : Request) (host : Host) (fs : Files) (told ls : List (List Char)) :
    Outcome Trouble × Files → Prop
  | printed : r.Prints → host.Encodes .output ls →
      Course r host fs told ls (⟨.success, lines ls, lines told⟩, fs)
  | printStopped {before : List (List Char)} {reason : List Char} : r.Prints →
      host.Stops .output ls before reason →
      Course r host fs told ls (⟨.broken (.unwritable reason), lines before, lines told⟩, fs)
  | unopened {path : List Char} {f : OpenFault} : r.outline = false → r.target? = some path →
      host.opened path (fs.openToAdd path) = .error f →
      Course r host fs told ls ((Trouble.target path f).outcome told, fs)
  | added {path : List Char} {place : FilePlace} {fs₁ fs' : Files} : r.outline = false →
      r.target? = some path → host.Opens fs path place fs₁ → host.Encodes .file ls →
      fs.Added path place (bytesOfText (lines ls)) fs' →
      Course r host fs told ls (⟨.success, [], lines told⟩, fs')
  | addStopped {path reason : List Char} {place : FilePlace} {fs₁ fs' : Files}
      {before : List (List Char)} : r.outline = false → r.target? = some path →
      host.Opens fs path place fs₁ → host.Stops .file ls before reason →
      fs.Added path place (bytesOfText (lines before)) fs' →
      Course r host fs told ls (⟨.broken (.unwritable reason), [], lines told⟩, fs')

theorem course_of_prints (h : r.answer host fresh (r.content host fs) = (told, .ok ls))
    (hprints : r.Prints) : r.Course host fs told ls (r.run host fresh fs) := by
  obtain hls | ⟨before, reason, hls⟩ := host.encodes_or_stops .output ls
  · rw [run_of_printed h hprints hls]
    exact .printed hprints hls
  · rw [run_of_print_stopped h hprints hls]
    exact .printStopped hprints hls

theorem course_of_opens (h : r.answer host fresh (r.content host fs) = (told, .ok ls))
    (houtline : r.outline = false) (htarget : r.target? = some path)
    (hopens : host.Opens fs path place fs₁) :
    r.Course host fs told ls (r.run host fresh fs) := by
  obtain hls | ⟨before, reason, hls⟩ := host.encodes_or_stops .file ls
  · obtain ⟨fs', hrun, hadded⟩ := run_of_added h houtline htarget hopens hls
    rw [hrun]
    exact .added houtline htarget hopens hls hadded
  · obtain ⟨fs', hrun, hadded⟩ := run_of_add_stopped h houtline htarget hopens hls
    rw [hrun]
    exact .addStopped houtline htarget hopens hls hadded

/-- There is no other way. -/
theorem course_of_run (h : r.answer host fresh (r.content host fs) = (told, .ok ls)) :
    r.Course host fs told ls (r.run host fresh fs) := by
  cases houtline : r.outline with
  | true => exact course_of_prints h (.inl houtline)
  | false =>
    cases htarget : r.target? with
    | none => exact course_of_prints h (.inr ⟨houtline, htarget⟩)
    | some path =>
      cases hopen : host.opened path (fs.openToAdd path) with
      | ok opened => exact course_of_opens h houtline htarget hopen
      | error f =>
        rw [run_of_unopened h houtline htarget hopen]
        exact .unopened houtline htarget hopen

end Request

end Coinage
