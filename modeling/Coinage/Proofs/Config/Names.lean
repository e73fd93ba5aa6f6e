import Coinage.Proofs.Config.Language
import Coinage.Proofs.Pattern.Printed
import Mathlib

/-!
# Names are what patterns refer to

An identifier is what the scanner reads to the end as a name, what makes a reference behind a dollar
sign, and what some pattern refers to. Rulebooks and languages accept exactly these as names: no
production is refused that a pattern could refer to, and none is accepted that no pattern can.
-/

namespace Coinage

open Grammar

/-- Some pattern refers to the name. -/
def Referable (name : Name) : Prop :=
  ∃ s p, Pattern.compile s = .ok p ∧ name ∈ p.root.references

/-- The scanner reads a text to its end as a name exactly if it is an identifier. -/
theorem Scan.identifier_start_eq_ok_iff {x : Name} :
    identifier (.start x) = .ok x ⟨x.length, []⟩ ↔ isIdentifier x = true := by
  rw [identifier_eq_ok]
  constructor
  · rintro ⟨r, -, hid, -⟩
    exact hid.isIdentifier
  · intro h
    exact ⟨[], (List.append_nil x).symm, ⟨h, by simp⟩, by simp [Cursor.start]⟩

theorem Tree.Writable.isIdentifier_of_mentions {closer : Option Char} {t : Tree} {name : Name}
    (h : t.Writable closer) (hm : t.Mentions name) : isIdentifier name = true := by
  induction h with
  | particle _ _ => cases hm
  | reference _ hid =>
    cases hm
    exact hid
  | choice _ _ _ ih =>
    cases hm with
    | choice hu hm => exact ih _ hu hm
  | sequence _ _ ih =>
    cases hm with
    | sequence hu hm => exact ih _ hu hm

/-- All that a pattern refers to are identifiers. -/
theorem isIdentifier_of_mem_references {s : List Char} {p : Pattern} {name : Name}
    (h : Pattern.compile s = .ok p) (hmem : name ∈ p.root.references) :
    isIdentifier name = true := by
  obtain ⟨ts, hroot, hts⟩ := isPatternRoot_of_compile h
  have hm := Tree.mem_references_iff.mp hmem
  rw [hroot] at hm
  cases hm with
  | sequence hu hm => exact (hts _ hu).1.isIdentifier_of_mentions hm

theorem compile_reference_iff {x : Name} :
    (∃ p, Pattern.compile ('$' :: x) = .ok p ∧
      p.root = .sequence [.reference x .once none] .once) ↔ isIdentifier x = true := by
  constructor
  · rintro ⟨p, hp, hroot⟩
    refine isIdentifier_of_mem_references hp ?_
    simp [hroot, Tree.references, Tree.referencesAll]
  · intro h
    exact ⟨_, compile_reference h, rfl⟩

@[simp] theorem referable_iff {x : Name} : Referable x ↔ isIdentifier x = true := by
  constructor
  · rintro ⟨s, p, hp, hmem⟩
    exact isIdentifier_of_mem_references hp hmem
  · intro h
    exact ⟨_, _, compile_reference h, by simp [Tree.references, Tree.referencesAll]⟩

theorem not_referable_iff {x : Name} : ¬Referable x ↔ isIdentifier x = false := by
  rw [referable_iff, Bool.not_eq_true]

theorem legible_iff {e : Name × Definition} :
    Legible e ↔ Referable e.1 ∧ ∃ p, e.2.pattern = .ok p := by
  rw [Legible, referable_iff]

namespace Rulebook

variable {ds : Table Name Definition} {name : Name}

/-- Nothing is refused exactly if all is legible. -/
theorem forall_build_ne_refused_iff :
    (∀ r, build ds ≠ .error (.refused r)) ↔ ∀ e ∈ ds, Legible e := by
  rw [← exists_mapM_readEntry_iff]
  simp only [ne_eq, build_eq_refused_iff, ← mapM_eq_error_iff]
  cases ds.mapM readEntry <;> simp

theorem readEntry_eq_name_error {e : Name × Definition} :
    readEntry e = .error (.pattern ⟨.badIdentifier, name, 0⟩) ↔
      e.1 = name ∧ isIdentifier name = false := by
  have hpattern : e.2.pattern ≠ .error (.pattern ⟨.badIdentifier, name, 0⟩) := by
    cases e.2 with
    | text s => exact compile_ne_badIdentifier_zero s name
    | compiled p => simp [Definition.pattern]
  rw [readEntry_eq_error, or_iff_left fun h => hpattern h.2]
  constructor
  · rintro ⟨hid, h⟩
    cases h
    exact ⟨rfl, hid⟩
  · rintro ⟨rfl, hid⟩
    exact ⟨hid, rfl⟩

/-- A name is refused exactly if it is no identifier and all in front of it is legible. -/
theorem build_eq_name_error :
    build ds = .error (.refused (.pattern ⟨.badIdentifier, name, 0⟩)) ↔
      ∃ before d after, ds = before ++ (name, d) :: after ∧ (∀ e ∈ before, Legible e) ∧
        isIdentifier name = false := by
  rw [build_eq_refused_iff]
  constructor
  · rintro ⟨before, ⟨_, d⟩, after, rfl, hbefore, herr⟩
    obtain ⟨rfl, hid⟩ := readEntry_eq_name_error.mp herr
    exact ⟨before, d, after, rfl, fun e he => exists_readEntry_iff.mp (hbefore e he), hid⟩
  · rintro ⟨before, d, after, rfl, hbefore, hid⟩
    exact ⟨before, _, after, rfl, fun e he => exists_readEntry_iff.mpr (hbefore e he),
      readEntry_eq_name_error.mpr ⟨rfl, hid⟩⟩

end Rulebook

namespace Language

variable {d : Data} {entries : List (Data × Data)} {name : Name}

theorem production_eq_name_error {e : Data × Data} :
    production e = .error (.productionName (.text name)) ↔
      e.1 = .text name ∧ isIdentifier name = false := by
  obtain ⟨k, v⟩ := e
  cases k with
  | text key =>
    cases hid : isIdentifier key with
    | false =>
      simp only [production, hid, badName, Data.isVast]
      constructor
      · intro h
        cases h
        exact ⟨rfl, hid⟩
      · rintro ⟨h, -⟩
        cases h
        rfl
    | true =>
      simp only [production, hid]
      constructor
      · intro h
        cases v <;> cases h
      · rintro ⟨h, hname⟩
        cases h
        rw [hid] at hname
        cases hname
  | _ =>
    simp only [production, badName]
    constructor
    · intro h
      split at h <;> cases h
    · rintro ⟨h, -⟩
      cases h

theorem firstError_production_name_iff :
    FirstError production entries (.productionName (.text name)) ↔
      ∃ before v after, entries = Data.ofTexts before ++ (.text name, v) :: after ∧
        (∀ e ∈ before, isIdentifier e.1 = true) ∧ isIdentifier name = false := by
  constructor
  · rintro ⟨before, ⟨_, v⟩, after, rfl, hbefore, herr⟩
    obtain ⟨texts, htexts⟩ := exists_mapM_eq_ok_iff.mpr hbefore
    obtain ⟨rfl, hids⟩ := mapM_production_eq_ok.mp htexts
    obtain ⟨rfl, hname⟩ := production_eq_name_error.mp herr
    exact ⟨texts, v, after, rfl, hids, hname⟩
  · rintro ⟨before, v, after, rfl, hids, hname⟩
    refine ⟨_, _, after, rfl, exists_mapM_eq_ok_iff.mp ⟨before, ?_⟩,
      production_eq_name_error.mpr ⟨rfl, hname⟩⟩
    exact mapM_production_eq_ok.mpr ⟨rfl, hids⟩

@[simp] theorem productionEntries_ne_name_error (d key : Data) :
    productionEntries d ≠ .error (.productionName key) := by
  unfold productionEntries
  split
  · simp
  · split <;> simp

/-- A name is refused exactly if it is no identifier and nothing in front of it is wrong. -/
theorem ofData_eq_name_error :
    ofData d = .error (.productionName (.text name)) ↔
      ∃ es w n before v after, d = .mapping es ∧
        Data.entry? "word".toList es = some (.text w) ∧
        (Data.entry? "name".toList es).getD (.text []) = .text n ∧
        productionData es = .mapping (Data.ofTexts before ++ (.text name, v) :: after) ∧
        (∀ e ∈ before, isIdentifier e.1 = true) ∧ isIdentifier name = false := by
  constructor
  · intro h
    obtain ⟨es, w, n, rfl, hword, hname⟩ | ⟨fault, hmem, hfault⟩ := exists_mapping_or_fault d
    case inr =>
      obtain rfl := Except.error.inj (h.symm.trans hfault)
      simp at hmem
    obtain hentries | ⟨entries, hentries, hfirst⟩ := (ofData_mapping_eq_error hword hname).mp h
    · exact absurd hentries (productionEntries_ne_name_error _ _)
    · obtain ⟨before, v, after, rfl, hids, hid⟩ := firstError_production_name_iff.mp hfirst
      obtain ⟨-, hnil⟩ | ⟨-, hmapping⟩ := productionEntries_eq_ok.mp hentries
      · simp at hnil
      · exact ⟨es, w, n, before, v, after, rfl, hword, hname, hmapping, hids, hid⟩
  · rintro ⟨es, w, n, before, v, after, rfl, hword, hname, hmapping, hids, hid⟩
    refine (ofData_mapping_eq_error hword hname).mpr (.inr ⟨_, ?_,
      firstError_production_name_iff.mpr ⟨before, v, after, rfl, hids, hid⟩⟩)
    refine productionEntries_eq_ok.mpr (.inr ⟨?_, hmapping⟩)
    rw [hmapping]
    simp [Data.isEmpty]

end Language

/-- No sign of the notation is a letter or a digit. -/
theorem no_letter_no_digit_of_mem_signs :
    ∀ c ∈ " \t[]()$\\?\x7b".toList, isLetter c = false ∧ isDigit c = false := by
  have h : " \t[]()$\\?\x7b".toList.all (fun c => !isLetter c && !isDigit c) = true := by decide
  simpa using h

/-- Identifiers are the names that the scanner reads to the end, that make a reference behind a
dollar sign, and that some pattern refers to. So rulebooks and languages accept as names exactly
what some pattern can refer to, and are refused for the first name that none can, if nothing in
front of it is wrong. No sign of the notation is a letter or a digit. -/
theorem names_are_what_patterns_refer_to (seed budget : Int) (ceiling : Option Nat) :
    (∀ x : Name,
      (isIdentifier x = true ↔ Scan.identifier (.start x) = .ok x ⟨x.length, []⟩) ∧
      (isIdentifier x = true ↔ ∃ p, Pattern.compile ('$' :: x) = .ok p ∧
        p.root = .sequence [.reference x .once none] .once) ∧
      (isIdentifier x = true ↔ Referable x)) ∧
    (∀ ds : Table Name Definition,
      ((∀ r, Setting.build seed ds budget ceiling ≠ .error (.refused r)) ↔
        ∀ e ∈ ds, Referable e.1 ∧ ∃ p, e.2.pattern = .ok p) ∧
      ∀ name, Setting.build seed ds budget ceiling =
          .error (.refused (.pattern ⟨.badIdentifier, name, 0⟩)) ↔
        ∃ before d after, ds = before ++ (name, d) :: after ∧
          (∀ e ∈ before, Referable e.1 ∧ ∃ p, e.2.pattern = .ok p) ∧ ¬Referable name) ∧
    (∀ d : Data,
      (∀ l, Language.ofData d = .ok l ↔
        ∃ es, d = .mapping es ∧ l.ToldBy es ∧ ∀ e ∈ l.productions, Referable e.1) ∧
      ∀ name, Language.ofData d = .error (.productionName (.text name)) ↔
        ∃ es w n before v after, d = .mapping es ∧
          Data.entry? "word".toList es = some (.text w) ∧
          (Data.entry? "name".toList es).getD (.text []) = .text n ∧
          Language.productionData es = .mapping (Data.ofTexts before ++ (.text name, v) :: after) ∧
          (∀ e ∈ before, Referable e.1) ∧ ¬Referable name) ∧
    ∀ c ∈ " \t[]()$\\?\x7b".toList, isLetter c = false ∧ isDigit c = false := by
  refine ⟨fun x => ⟨Scan.identifier_start_eq_ok_iff.symm, compile_reference_iff.symm,
    referable_iff.symm⟩, fun ds => ?_, fun d => ?_, no_letter_no_digit_of_mem_signs⟩
  · simp only [ne_eq, Setting.build_eq_error, ← legible_iff, not_referable_iff]
    exact ⟨Rulebook.forall_build_ne_refused_iff, fun name => Rulebook.build_eq_name_error⟩
  · simp only [referable_iff, Bool.not_eq_true]
    exact ⟨fun l => Language.ofData_eq_ok, fun name => Language.ofData_eq_name_error⟩

/-- A name of other scripts, and a text that begins with a digit. -/
theorem names_are_what_patterns_refer_to_digit :
    let x : Name := "é٣".toList
    let y : Name := "1w".toList
    let es : List (Data × Data) := [(.text "word".toList, .text "$é٣".toList),
      (.text "productions".toList, .mapping [(.text x, .text ['u']), (.text y, .null)])]
    Scan.identifier (.start x) = .ok x ⟨2, []⟩ ∧ Referable x ∧ ¬Referable y ∧
      Setting.build 7 [(x, .text ['u']), (y, .text "[u".toList)] 200 none =
        .error (.refused (.pattern ⟨.badIdentifier, y, 0⟩)) ∧
      Language.ofData (.mapping es) = .error (.productionName (.text y)) := by
  intro x y es
  obtain ⟨hnames, hbuild, hdata, -⟩ := names_are_what_patterns_refer_to 7 200 none
  have hx : isIdentifier x = true := by decide
  have hrefers : Referable x := (hnames x).2.2.mp hx
  have hy : ¬Referable y := fun h => absurd ((hnames y).2.2.mpr h) (by decide)
  have hu : Pattern.compile ['u'] = .ok ⟨['u'], .sequence [.particle ['u'] .once] .once⟩ := by cbv
  refine ⟨(hnames x).1.mp hx, hrefers, hy, ((hbuild _).2 y).mpr ⟨[(x, .text ['u'])], _, [], rfl,
    List.forall_mem_singleton.mpr ⟨hrefers, _, hu⟩, hy⟩, ((hdata _).2 y).mpr ⟨es, _, [],
    [(x, ['u'])], .null, [], rfl, rfl, rfl, rfl, List.forall_mem_singleton.mpr hrefers, hy⟩⟩

end Coinage
