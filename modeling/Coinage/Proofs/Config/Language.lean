import Coinage.Config.Language
import Coinage.Proofs.Pattern.Refusal
import Coinage.Proofs.Rulebook.Acceptance
import Mathlib

/-!
# Languages and their rulebooks

A language is read from data whose productions are identifiers that stand for texts. The rulebook of
a language asks for the same identifiers, so it never refuses a name: there is one unless some text
is no pattern or the names lead back to themselves. And of texts that are all patterns, data and
rulebook refuse the same name.
-/

namespace Coinage

open Relation

def Data.ofTexts (texts : Table Name (List Char)) : List (Data × Data) :=
  texts.map fun e => (.text e.1, .text e.2)

namespace Language

variable {d : Data} {es entries : List (Data × Data)} {texts : Table Name (List Char)}
  {w n : List Char} {l : Language} {fault : ShapeFault}

/-- The data that tell the productions: those under their word, and null if there are none. -/
def productionData (es : List (Data × Data)) : Data :=
  (Data.entry? "productions".toList es).getD .null

/-- The entries tell all of the language, as far as it is a matter of shape: the word, the name,
which may be missing, and the productions, of which an empty value of any kind tells none. -/
structure ToldBy (l : Language) (es : List (Data × Data)) : Prop where
  word : Data.entry? "word".toList es = some (.text l.word)
  name : (Data.entry? "name".toList es).getD (.text []) = .text l.name
  none_of_isEmpty : (productionData es).isEmpty = true → l.productions = []
  of_not_isEmpty : (productionData es).isEmpty = false →
    productionData es = .mapping (Data.ofTexts l.productions)

@[simp] theorem production_eq_ok {e : Data × Data} {x : Name × List Char} :
    production e = .ok x ↔ isIdentifier x.1 = true ∧ e = (.text x.1, .text x.2) := by
  obtain ⟨k, v⟩ := e
  obtain ⟨name, source⟩ := x
  constructor
  · intro h
    simp only [production] at h
    cases k with
    | text key =>
      simp only at h
      split at h
      · rename_i hid
        cases v with
        | text s =>
          cases h
          exact ⟨hid, rfl⟩
        | _ => cases h
      · cases h
    | _ => cases h
  · rintro ⟨hid, he⟩
    cases he
    exact if_pos hid

@[simp] theorem production_text_eq_error {name source : List Char} :
    production (.text name, .text source) = .error fault ↔
      isIdentifier name = false ∧ fault = .productionName (.text name) := by
  cases hid : isIdentifier name <;>
    simp [production, hid, badName, Data.isVast, eq_comm]

/-- The entries are read exactly if they are identifiers that stand for texts. -/
@[simp] theorem mapM_production_eq_ok : entries.mapM production = .ok texts ↔
    entries = Data.ofTexts texts ∧ ∀ e ∈ texts, isIdentifier e.1 = true := by
  induction entries generalizing texts with
  | nil =>
    rw [List.mapM_nil]
    cases texts <;> simp [Data.ofTexts, pure, Except.pure]
  | cons e entries ih =>
    simp only [List.mapM_cons, except_bind_eq_ok, ih]
    constructor
    · rintro ⟨x, hx, rest, ⟨rfl, hrest⟩, h⟩
      obtain ⟨hid, rfl⟩ := production_eq_ok.mp hx
      cases h
      exact ⟨rfl, List.forall_mem_cons.mpr ⟨hid, hrest⟩⟩
    · rintro ⟨heq, hids⟩
      cases texts with
      | nil => cases heq
      | cons x rest =>
        obtain ⟨hid, hrest⟩ := List.forall_mem_cons.mp hids
        obtain ⟨rfl, rfl⟩ := List.cons.inj heq
        exact ⟨x, production_eq_ok.mpr ⟨hid, rfl⟩, rest, ⟨rfl, hrest⟩, rfl⟩

theorem productionEntries_eq_ok : productionEntries d = .ok entries ↔
    d.isEmpty = true ∧ entries = [] ∨ d.isEmpty = false ∧ d = .mapping entries := by
  unfold productionEntries
  cases hd : d.isEmpty with
  | true => simp [eq_comm]
  | false => cases d <;> simp

/-- Data of the right shape up to the productions are a language exactly if the productions are. -/
theorem ofData_mapping (hword : Data.entry? "word".toList es = some (.text w))
    (hname : (Data.entry? "name".toList es).getD (.text []) = .text n) :
    ofData (.mapping es) = (do
      let entries ← productionEntries (productionData es)
      return ⟨n, w, ← entries.mapM production⟩) := by
  simp only [ofData, hword, hname]
  rfl

/-- Data of the right shape up to the productions fail where there are none, or else with the first
production that fails. -/
theorem ofData_mapping_eq_error (hword : Data.entry? "word".toList es = some (.text w))
    (hname : (Data.entry? "name".toList es).getD (.text []) = .text n) :
    ofData (.mapping es) = .error fault ↔
      productionEntries (productionData es) = .error fault ∨
        ∃ entries, productionEntries (productionData es) = .ok entries ∧
          FirstError production entries fault := by
  rw [ofData_mapping hword hname, except_bind_eq_error]
  refine or_congr_right (exists_congr fun entries => and_congr_right fun _ => ?_)
  rw [except_bind_eq_error, mapM_eq_error_iff]
  refine or_iff_left ?_
  rintro ⟨texts, -, h⟩
  cases h

/-- Data have a word and a name of the right kind, or that is their fault. -/
theorem exists_mapping_or_fault (d : Data) :
    (∃ es w n, d = .mapping es ∧ Data.entry? "word".toList es = some (.text w) ∧
      (Data.entry? "name".toList es).getD (.text []) = .text n) ∨
    ∃ fault ∈ [ShapeFault.topLevel, .word, .name], ofData d = .error fault := by
  unfold ofData
  split
  · rename_i es
    split
    · rename_i w hword
      split
      · rename_i n hname
        exact .inl ⟨es, w, n, rfl, hword, hname⟩
      · exact .inr ⟨.name, by simp, rfl⟩
    · exact .inr ⟨.word, by simp, rfl⟩
  · exact .inr ⟨.topLevel, by simp, rfl⟩

/-- Data are a language exactly if they are a mapping that tells it and all names are identifiers.
-/
theorem ofData_eq_ok : ofData d = .ok l ↔
    ∃ es, d = .mapping es ∧ l.ToldBy es ∧ ∀ e ∈ l.productions, isIdentifier e.1 = true := by
  constructor
  · intro h
    obtain ⟨es, w, n, rfl, hword, hname⟩ | ⟨fault, -, hfault⟩ := exists_mapping_or_fault d
    case inr => simp [h] at hfault
    rw [ofData_mapping hword hname] at h
    obtain ⟨entries, hentries, h⟩ := except_bind_eq_ok.mp h
    obtain ⟨texts, htexts, h⟩ := except_bind_eq_ok.mp h
    cases h
    obtain ⟨rfl, hids⟩ := mapM_production_eq_ok.mp htexts
    refine ⟨es, rfl, ⟨hword, hname, fun hempty => ?_, fun hempty => ?_⟩, hids⟩
    · rcases productionEntries_eq_ok.mp hentries with ⟨-, hnil⟩ | ⟨hnot, -⟩
      · exact List.map_eq_nil_iff.mp hnil
      · rw [hempty] at hnot
        cases hnot
    · rcases productionEntries_eq_ok.mp hentries with ⟨hnot, -⟩ | ⟨-, hmapping⟩
      · rw [hempty] at hnot
        cases hnot
      · exact hmapping
  · rintro ⟨es, rfl, htold, hids⟩
    have hentries : productionEntries (productionData es) =
        .ok (Data.ofTexts l.productions) := by
      rw [productionEntries_eq_ok]
      cases hempty : (productionData es).isEmpty with
      | true => exact .inl ⟨rfl, by rw [htold.none_of_isEmpty hempty]; rfl⟩
      | false => exact .inr ⟨rfl, htold.of_not_isEmpty hempty⟩
    rw [ofData_mapping htold.word htold.name, hentries]
    exact except_bind_eq_ok.mpr ⟨_, rfl, except_bind_eq_ok.mpr
      ⟨_, mapM_production_eq_ok.mpr ⟨rfl, hids⟩, rfl⟩⟩

/-- Texts under identifiers are refused where the first of them is. -/
theorem build_eq_refused_iff_of_identifiers {seed budget : Int} {ceiling : Option Nat} {r : Refusal}
    (hids : ∀ e ∈ texts, isIdentifier e.1 = true) :
    Setting.build seed (Definition.ofTexts texts) budget ceiling = .error (.refused r) ↔
      FirstError (fun e => Pattern.compile e.2) texts r := by
  rw [Setting.build_eq_error, Rulebook.build_eq_refused_iff, Definition.ofTexts, firstError_map]
  refine firstError_congr (fun e he => ?_) fun e he => ?_
  · rw [Rulebook.exists_readEntry_iff]
    exact and_iff_right (hids e he)
  · rw [Rulebook.readEntry_eq_error]
    simp [hids e he, Definition.pattern]

theorem exists_cyclic_iff_of_identifiers {seed budget : Int} {ceiling : Option Nat}
    (hids : ∀ e ∈ texts, isIdentifier e.1 = true) :
    (∃ c, Setting.build seed (Definition.ofTexts texts) budget ceiling = .error (.cyclic c)) ↔
      (∀ e ∈ texts, ∃ p, Pattern.compile e.2 = .ok p) ∧
        ∃ a, TransGen (Depends (treeOf texts)) a a := by
  simp only [Setting.build_eq_error, Rulebook.exists_build_eq_cyclic_iff, definedTree_ofTexts]
  refine and_congr_left' ?_
  simp only [Definition.ofTexts, List.forall_mem_map]
  exact forall₂_congr fun e he => and_iff_right (hids e he)

/-- Of texts that are patterns, data and rulebook refuse the first that stands under no
identifier. -/
theorem firstError_production_iff {seed budget : Int} {ceiling : Option Nat} {name : Name}
    (hpatterns : ∀ e ∈ texts, ∃ p, Pattern.compile e.2 = .ok p) :
    FirstError production (Data.ofTexts texts) (.productionName (.text name)) ↔
      Setting.build seed (Definition.ofTexts texts) budget ceiling =
        .error (.refused (.pattern ⟨.badIdentifier, name, 0⟩)) := by
  rw [Setting.build_eq_error, Rulebook.build_eq_refused_iff, Definition.ofTexts, Data.ofTexts,
    firstError_map, firstError_map]
  refine firstError_congr (fun e he => ?_) fun e he => ?_
  · rw [Rulebook.exists_readEntry_iff]
    constructor
    · rintro ⟨x, hx⟩
      obtain ⟨hid, heq⟩ := production_eq_ok.mp hx
      have hname : e.1 = x.1 := Data.text.inj (Prod.mk.inj heq).1
      exact ⟨hname ▸ hid, hpatterns e he⟩
    · rintro ⟨hid, -⟩
      exact ⟨e, production_eq_ok.mpr ⟨hid, rfl⟩⟩
  · obtain ⟨p, hp⟩ := hpatterns e he
    rw [production_text_eq_error, Rulebook.readEntry_eq_error]
    simp [Definition.pattern, hp]

/-- Data whose productions are texts fail with the first of them that fails. -/
theorem ofData_eq_error (hword : Data.entry? "word".toList es = some (.text w))
    (hname : (Data.entry? "name".toList es).getD (.text []) = .text n)
    (hproductions : Data.entry? "productions".toList es = some (.mapping (Data.ofTexts texts))) :
    ofData (.mapping es) = .error fault ↔ FirstError production (Data.ofTexts texts) fault := by
  have hentries : productionEntries (productionData es) = .ok (Data.ofTexts texts) := by
    rw [productionEntries_eq_ok, productionData, hproductions, Option.getD_some]
    cases texts with
    | nil => exact .inl ⟨rfl, rfl⟩
    | cons e texts => exact .inr ⟨rfl, rfl⟩
  rw [ofData_mapping_eq_error hword hname, hentries]
  simp

theorem exists_name_of_firstError (h : FirstError production (Data.ofTexts texts) fault) :
    ∃ name, fault = .productionName (.text name) := by
  rw [Data.ofTexts, firstError_map] at h
  obtain ⟨before, e, after, -, -, herr⟩ := h
  exact ⟨e.1, (production_text_eq_error.mp herr).2⟩

/-- Data and rulebook agree on names. Data that are a language tell its word and its productions, in
their order, and none if an empty value stands for them. The rulebook of the language is refused for
no name: it is refused exactly for the first text that is no pattern, if there is one, and is cyclic
exactly if all texts are patterns and a name leads back to itself. In turn, where all texts under
names are patterns, data with the right top level are no language exactly if the rulebook would be
refused for a name, and for that name. -/
theorem config_and_rulebook_agree (seed budget : Int) (ceiling : Option Nat) :
    (∀ d l, ofData d = .ok l →
      (∃ es, d = .mapping es ∧ l.ToldBy es) ∧
      (∀ r, l.setting seed budget ceiling = .error (.refused r) ↔
        FirstError (fun e => Pattern.compile e.2) l.productions r) ∧
      ((∃ c, l.setting seed budget ceiling = .error (.cyclic c)) ↔
        (∀ e ∈ l.productions, ∃ p, Pattern.compile e.2 = .ok p) ∧
          ∃ a, TransGen (Depends (treeOf l.productions)) a a) ∧
      ∀ name, l.setting seed budget ceiling ≠ .error (.refused (.pattern ⟨.badIdentifier, name, 0⟩))) ∧
    ∀ es texts w n, Data.entry? "word".toList es = some (.text w) →
      (Data.entry? "name".toList es).getD (.text []) = .text n →
      Data.entry? "productions".toList es = some (.mapping (Data.ofTexts texts)) →
      (∀ e ∈ texts, ∃ p, Pattern.compile e.2 = .ok p) →
      ∀ fault, ofData (.mapping es) = .error fault ↔
        ∃ name, fault = .productionName (.text name) ∧
          Setting.build seed (Definition.ofTexts texts) budget ceiling =
            .error (.refused (.pattern ⟨.badIdentifier, name, 0⟩)) := by
  refine ⟨fun d l h => ?_, fun es texts w n hword hname hproductions hpatterns fault => ?_⟩
  · obtain ⟨es, hd, htold, hids⟩ := ofData_eq_ok.mp h
    have hrefused {r : Refusal} : l.setting seed budget ceiling = .error (.refused r) ↔
        FirstError (fun e => Pattern.compile e.2) l.productions r :=
      build_eq_refused_iff_of_identifiers hids
    refine ⟨⟨es, hd, htold⟩, fun r => hrefused, ?_, fun name hname => ?_⟩
    · exact exists_cyclic_iff_of_identifiers hids
    · obtain ⟨-, e, -, -, -, herr⟩ := hrefused.mp hname
      exact compile_ne_badIdentifier_zero _ _ herr
  · rw [ofData_eq_error hword hname hproductions]
    constructor
    · intro h
      obtain ⟨name, rfl⟩ := exists_name_of_firstError h
      exact ⟨name, rfl, (firstError_production_iff hpatterns).mp h⟩
    · rintro ⟨name, rfl, h⟩
      exact (firstError_production_iff hpatterns).mpr h

/-- A language whose second text is no pattern, and data in which the second name is no identifier,
nor is the third. -/
theorem config_and_rulebook_agree_refused :
    let texts : Table Name (List Char) := [(['v'], "$w".toList), (['w'], "[u".toList)]
    let d : Data := .mapping [(.text "word".toList, .text "$v".toList),
      (.text "productions".toList, .mapping (Data.ofTexts texts))]
    let l : Language := ⟨[], "$v".toList, texts⟩
    let others : Table Name (List Char) :=
      [(['v'], ['e']), ("1w".toList, ['u']), ("2w".toList, ['u'])]
    let es : List (Data × Data) := [(.text "productions".toList, .mapping (Data.ofTexts others)),
      (.text "word".toList, .text ['a'])]
    ofData d = .ok l ∧ l.ToldBy [(.text "word".toList, .text "$v".toList),
        (.text "productions".toList, .mapping (Data.ofTexts texts))] ∧
      l.setting 7 200 none = .error (.refused (.pattern ⟨.unexpectedEnd, "[u".toList, 2⟩)) ∧
      Setting.build 7 (Definition.ofTexts others) 200 none =
        .error (.refused (.pattern ⟨.badIdentifier, "1w".toList, 0⟩)) ∧
      ofData (.mapping es) = .error (.productionName (.text "1w".toList)) := by
  intro texts d l others es
  obtain ⟨hlanguage, hdata⟩ := config_and_rulebook_agree 7 200 none
  have hd : ofData d = .ok l := by rfl
  have hw : Pattern.compile "$w".toList =
      .ok ⟨"$w".toList, .sequence [.reference ['w'] .once none] .once⟩ := by cbv
  have hu : Pattern.compile "[u".toList =
      .error (.pattern ⟨.unexpectedEnd, "[u".toList, 2⟩) := by cbv
  have hname : Setting.build 7 (Definition.ofTexts others) 200 none =
      .error (.refused (.pattern ⟨.badIdentifier, "1w".toList, 0⟩)) := by cbv
  have he : Pattern.compile ['e'] = .ok ⟨['e'], .sequence [.particle ['e'] .once] .once⟩ := by cbv
  have hu' : Pattern.compile ['u'] = .ok ⟨['u'], .sequence [.particle ['u'] .once] .once⟩ := by cbv
  have hpatterns : ∀ e ∈ others, ∃ p, Pattern.compile e.2 = .ok p := by
    simp only [others, List.forall_mem_cons]
    exact ⟨⟨_, he⟩, ⟨_, hu'⟩, ⟨_, hu'⟩, by simp⟩
  obtain ⟨⟨es', hes, htold⟩, hrefused, -, -⟩ := hlanguage d l hd
  obtain rfl := Data.mapping.inj hes
  refine ⟨hd, htold, (hrefused _).mpr ⟨[(['v'], "$w".toList)], (['w'], "[u".toList), [], rfl,
    ?_, hu⟩, hname, (hdata es others ['a'] [] rfl rfl rfl hpatterns _).mpr ⟨_, rfl, hname⟩⟩
  exact List.forall_mem_singleton.mpr ⟨_, hw⟩

end Language

end Coinage
