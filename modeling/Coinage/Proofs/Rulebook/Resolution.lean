import Coinage.Proofs.Pattern.Shape
import Coinage.Proofs.Results
import Coinage.Proofs.Rulebook.Cycles
import Coinage.Setting

/-!
# Names and their rules

In the rulebook of a table of definitions every name of the table resolves to the linked root of its
own definition, every other name resolves to nothing, and references fall in rank. Most tables hold
texts only.
-/

namespace Coinage

def Definition.ofTexts (texts : Table Name (List Char)) : Table Name Definition :=
  texts.map fun e => (e.1, .text e.2)

/-- The tree that a table of definitions gives to a name: the root of its own definition, if the
table has one that is a pattern. -/
def definedTree (ds : Table Name Definition) (name : Name) : Option Tree :=
  (ds.get? name).bind fun d => d.pattern.toOption.map Pattern.root

/-- The tree of a name: the root of its own text, if the table has one that is a pattern. -/
def treeOf (texts : Table Name (List Char)) (name : Name) : Option Tree :=
  (texts.get? name).bind fun source => (Pattern.compile source).toOption.map Pattern.root

/-- The linked trees of the names of a table, as a rulebook has them. -/
def linkedTreeOf (texts : Table Name (List Char)) (b : Rulebook) (name : Name) : Option Tree :=
  (treeOf texts name).map (Tree.link b.slotOf)

@[simp] theorem keys_ofTexts (texts : Table Name (List Char)) :
    (Definition.ofTexts texts).keys = texts.keys := by
  simp [Definition.ofTexts, Table.keys]

@[simp] theorem definedTree_ofTexts (texts : Table Name (List Char)) :
    definedTree (Definition.ofTexts texts) = treeOf texts := by
  funext name
  induction texts with
  | nil => rfl
  | cons e texts ih =>
    simp only [definedTree, treeOf, Definition.ofTexts, List.map_cons, Table.get?] at ih ⊢
    split
    · rfl
    · exact ih

theorem exists_compile_of_treeOf {texts : Table Name (List Char)} {name : Name} {u : Tree}
    (h : treeOf texts name = some u) :
    ∃ source p, Pattern.compile source = .ok p ∧ p.root = u := by
  simp only [treeOf, Option.bind_eq_some_iff, Option.map_eq_some_iff] at h
  obtain ⟨source, -, p, hp, rfl⟩ := h
  refine ⟨source, p, ?_, rfl⟩
  cases hc : Pattern.compile source with
  | error e => simp [hc, Except.toOption] at hp
  | ok q =>
    simp only [hc, Except.toOption, Option.some.injEq] at hp
    rw [hp]

namespace Rulebook

/-- A definition is read if its name is an identifier and it is a pattern. -/
@[simp] theorem readEntry_eq_ok {e : Name × Definition} {e' : Name × Tree} :
    readEntry e = .ok e' ↔
      isIdentifier e.1 = true ∧ ∃ p, e.2.pattern = .ok p ∧ e' = (e.1, p.root) := by
  simp only [readEntry]
  split
  · rename_i h
    rw [except_bind_eq_ok]
    constructor
    · rintro ⟨p, hp, hr⟩
      cases hr
      exact ⟨h, p, hp, rfl⟩
    · rintro ⟨-, p, hp, rfl⟩
      exact ⟨p, hp, rfl⟩
  · rename_i h
    constructor
    · intro hr
      cases hr
    · rintro ⟨h', -⟩
      exact absurd h' h

/-- Reading definitions keeps the names, and gives every name the tree of its definition. -/
theorem mapM_readEntry_eq_ok {ds : Table Name Definition} {t : Table Name Tree}
    (h : ds.mapM readEntry = .ok t) :
    t.keys = ds.keys ∧ ∀ name, t.get? name = definedTree ds name := by
  induction ds generalizing t with
  | nil =>
    cases h
    exact ⟨rfl, fun _ => rfl⟩
  | cons e ds ih =>
    rw [List.mapM_cons] at h
    obtain ⟨e', he, h⟩ := except_bind_eq_ok.mp h
    obtain ⟨t', ht, h⟩ := except_bind_eq_ok.mp h
    cases h
    obtain ⟨hk, hg⟩ := ih ht
    obtain ⟨-, p, hp, rfl⟩ := readEntry_eq_ok.mp he
    refine ⟨by simpa [Table.keys] using hk, fun n => ?_⟩
    simp only [Table.get?, definedTree]
    split
    · simp [hp, Except.toOption]
    · exact hg n

/-- Every tree that is read comes from a definition. -/
theorem exists_readEntry_of_mem {ds : Table Name Definition} {t : Table Name Tree}
    (h : ds.mapM readEntry = .ok t) {e' : Name × Tree} (he' : e' ∈ t) :
    ∃ e ∈ ds, readEntry e = .ok e' := by
  induction ds generalizing t with
  | nil =>
    cases h
    cases he'
  | cons e ds ih =>
    rw [List.mapM_cons] at h
    obtain ⟨e₁, he, h⟩ := except_bind_eq_ok.mp h
    obtain ⟨t', ht, h⟩ := except_bind_eq_ok.mp h
    cases h
    obtain rfl | hmem := List.mem_cons.mp he'
    · exact ⟨e, List.mem_cons_self, he⟩
    · obtain ⟨e₂, he₂, hread⟩ := ih ht hmem
      exact ⟨e₂, List.mem_cons_of_mem e he₂, hread⟩

theorem ofTable_eq_ok {t : Table Name Tree} {b : Rulebook} (h : ofTable t = .ok b) :
    firstCycle? t.keys (successors t) = none ∧ b.names = t.keys ∧
      b.rules = t.map fun e => e.2.link b.slotOf := by
  simp only [ofTable] at h
  split at h
  · cases h
  · rename_i hc
    cases h
    exact ⟨hc, rfl, rfl⟩

/-- How the names of a rulebook resolve: a name with a tree has a slot whose rule is that tree,
linked, and any other name has no slot. -/
structure Resolves (b : Rulebook) (tree? : Name → Option Tree) : Prop where
  defined {name : Name} {u : Tree} : tree? name = some u →
    ∃ i, b.slotOf name = some i ∧ b.rule? i = some (u.link b.slotOf)
  undefined {name : Name} : tree? name = none → b.slotOf name = none

theorem resolves_of_ofTable {t : Table Name Tree} {b : Rulebook} (h : ofTable t = .ok b) :
    b.Resolves fun name => t.get? name := by
  obtain ⟨-, hn, hr⟩ := ofTable_eq_ok h
  constructor
  · intro name u hu
    obtain ⟨i, hi, hv⟩ := Table.exists_idxOf? hu
    refine ⟨i, by simp [slotOf, hn, hi], ?_⟩
    obtain ⟨e, he, rfl⟩ := Option.map_eq_some_iff.mp hv
    simp [rule?, hr, he]
  · intro name hu
    have hk : name ∉ t.keys := by
      rw [Table.mem_keys_iff, hu]
      simp
    simp [slotOf, hn, List.idxOf?_eq_none_iff.mpr hk]

/-- A rulebook of definitions is that of the table of their trees. -/
theorem exists_table_of_definitions {ds : Table Name Definition} {b : Rulebook}
    (h : build ds = .ok b) :
    ∃ t : Table Name Tree, t.keys = ds.keys ∧ (∀ name, t.get? name = definedTree ds name) ∧
      ofTable t = .ok b := by
  simp only [build] at h
  split at h
  · cases h
  · rename_i t ht
    obtain ⟨hk, hg⟩ := mapM_readEntry_eq_ok ht
    exact ⟨t, hk, hg, h⟩

theorem resolves_of_definitions {ds : Table Name Definition} {b : Rulebook}
    (h : build ds = .ok b) : b.Resolves (definedTree ds) := by
  obtain ⟨t, -, hg, ht⟩ := exists_table_of_definitions h
  exact funext hg ▸ resolves_of_ofTable ht

/-- A rulebook of texts is that of the table of their trees. -/
theorem exists_table_of_build {texts : Table Name (List Char)} {b : Rulebook}
    (h : build (Definition.ofTexts texts) = .ok b) :
    ∃ t : Table Name Tree, t.keys = texts.keys ∧ (∀ name, t.get? name = treeOf texts name) ∧
      ofTable t = .ok b := by
  rw [← keys_ofTexts, ← definedTree_ofTexts]
  exact exists_table_of_definitions h

/-- The rules of texts are trees in shape, linked. -/
theorem exists_shaped_of_mem_rules {texts : Table Name (List Char)} {b : Rulebook}
    (h : build (Definition.ofTexts texts) = .ok b) {rule : Tree} (hrule : rule ∈ b.rules) :
    ∃ u : Tree, u.Shaped ∧ rule = u.link b.slotOf := by
  simp only [build] at h
  split at h
  · cases h
  · rename_i t ht
    obtain ⟨-, -, hrules⟩ := ofTable_eq_ok h
    rw [hrules] at hrule
    obtain ⟨e', he', rfl⟩ := List.mem_map.mp hrule
    obtain ⟨e, he, hread⟩ := exists_readEntry_of_mem ht he'
    obtain ⟨⟨name, source⟩, -, rfl⟩ := List.mem_map.mp he
    obtain ⟨-, p, hp, rfl⟩ := readEntry_eq_ok.mp hread
    exact ⟨p.root, Pattern.shaped_root hp, rfl⟩

theorem resolves_of_build {texts : Table Name (List Char)} {b : Rulebook}
    (h : build (Definition.ofTexts texts) = .ok b) : b.Resolves (treeOf texts) :=
  definedTree_ofTexts texts ▸ resolves_of_definitions h

/-- In an accepted table every name has a tree. -/
theorem get?_eq_none_of_build {texts : Table Name (List Char)} {b : Rulebook}
    (h : build (Definition.ofTexts texts) = .ok b) {name : Name} (hn : treeOf texts name = none) :
    texts.get? name = none := by
  obtain ⟨t, hk, hg, -⟩ := exists_table_of_build h
  have hnot : name ∉ texts.keys := by
    rw [← hk, Table.mem_keys_iff, hg, hn]
    simp
  rw [Option.eq_none_iff_forall_ne_some]
  exact fun source hs => hnot (Table.mem_keys_iff.mpr ⟨source, hs⟩)

/-- In an accepted table the trees of names refer to names of lower rank only. -/
theorem exists_rank_of_build {texts : Table Name (List Char)} {b : Rulebook}
    (h : build (Definition.ofTexts texts) = .ok b) :
    ∃ rank : Name → Nat, (∀ name, rank name ≤ texts.length - 1) ∧
      ∀ a u c v, treeOf texts a = some u → u.Mentions c → treeOf texts c = some v →
        rank c < rank a := by
  obtain ⟨t, hk, hg, ht⟩ := exists_table_of_build h
  obtain ⟨rank, hle, hr⟩ := exists_rank_of_firstCycle? (ofTable_eq_ok ht).1
  have hl : t.length = texts.length := by simpa [Table.keys] using congrArg List.length hk
  refine ⟨rank, fun name => hl ▸ hle name, fun a u c v ha hc hv => hr a c ⟨⟨u, ?_, hc⟩, ?_⟩⟩
  · rw [hg, ha]
  · exact Table.mem_keys_iff.mpr ⟨v, by rw [hg, hv]⟩

theorem exists_linked_rank_of_build {texts : Table Name (List Char)} {b : Rulebook}
    (h : build (Definition.ofTexts texts) = .ok b) :
    ∃ rank : Name → Nat, (∀ name, rank name ≤ texts.length) ∧
      ∀ a u c v, linkedTreeOf texts b a = some u → u.Mentions c → linkedTreeOf texts b c = some v →
        rank c < rank a := by
  obtain ⟨rank, hle, hr⟩ := exists_rank_of_build h
  refine ⟨rank, fun name => Nat.le_trans (hle name) (Nat.sub_le _ _), fun a u c v ha hc hv => ?_⟩
  obtain ⟨t, ht, rfl⟩ := Option.map_eq_some_iff.mp ha
  obtain ⟨w, hw, rfl⟩ := Option.map_eq_some_iff.mp hv
  exact hr a t c w ht (Tree.mentions_link_iff.mp hc) hw

end Rulebook

namespace Setting

variable {s : Setting} {seed budget : Int} {ds : Table Name Definition} {ceiling : Option Nat}

theorem build_eq_ok : build seed ds budget ceiling = .ok s ↔
    Rulebook.build ds = .ok s.book ∧ s = ⟨seed, s.book, budget, ceiling⟩ := by
  rw [build, except_bind_eq_ok]
  constructor
  · rintro ⟨b, hb, h⟩
    cases h
    exact ⟨hb, rfl⟩
  · rintro ⟨hb, h⟩
    exact ⟨s.book, hb, congrArg Except.ok h.symm⟩

@[simp] theorem build_eq_error {e : RulebookError} :
    build seed ds budget ceiling = .error e ↔ Rulebook.build ds = .error e := by
  rw [build, except_bind_eq_error]
  refine or_iff_left ?_
  rintro ⟨b, -, h⟩
  cases h

end Setting

end Coinage
