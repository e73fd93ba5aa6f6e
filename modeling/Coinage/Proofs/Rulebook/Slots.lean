import Coinage.Proofs.Rulebook.Acceptance
import Mathlib.Data.List.Basic

/-!
# The slots of names

A rulebook numbers the names of its table in their order, from zero on, and has the rule of a name
in the slot of the name. In its rules and in every tree that is linked with it, every reference
carries the slot of its own name, at whatever place it stands.
-/

namespace Coinage

/-- Every reference in the tree carries the slot that is given for its name. -/
def Tree.Resolved (slotOf : Name → Option Int) (t : Tree) : Prop :=
  ∀ name b slot, t.HasNode (.reference name b slot) → slot = slotOf name

theorem Tree.resolved_link (slotOf : Name → Option Int) (t : Tree) :
    (t.link slotOf).Resolved slotOf := by
  intro name b slot h
  obtain ⟨u, -, hlink⟩ := Tree.hasNode_link_iff.mp h
  cases u with
  | reference => cases hlink; rfl
  | _ => simp at hlink

namespace Rulebook

/-- The rulebook has the names of the table in slots `0` to `n - 1`, in their order, and in the slot
of a name a rule that is the root of the name's own text, the slots of its references apart. -/
structure Numbers (b : Rulebook) (texts : Table Name (List Char)) : Prop where
  length : b.rules.length = texts.length
  entry {i : Nat} {name : Name} {source : List Char} : texts[i]? = some (name, source) →
    b.slotOf name = some i ∧ ∃ p rule, Pattern.compile source = .ok p ∧
      b.rules[i]? = some rule ∧ rule.alike p.root = true
  slot {name : Name} {k : Int} : b.slotOf name = some k →
    ∃ i : Nat, k = i ∧ ∃ source, texts[i]? = some (name, source)
  unknown {name : Name} : b.slotOf name = none ↔ texts.get? name = none

variable {texts : Table Name (List Char)} {b : Rulebook}

theorem slotOf_eq_some_iff (hn : texts.keys.Nodup) (hnames : b.names = texts.keys) {name : Name}
    {k : Int} :
    b.slotOf name = some k ↔ ∃ i : Nat, k = i ∧ ∃ source, texts[i]? = some (name, source) := by
  simp only [slotOf, hnames, Option.map_eq_some_iff, Table.idxOf?_keys_eq_some_iff hn]
  constructor
  · rintro ⟨i, hi, rfl⟩
    exact ⟨i, rfl, hi⟩
  · rintro ⟨i, rfl, hi⟩
    exact ⟨i, hi, rfl⟩

theorem treeOf_eq_some (hn : texts.keys.Nodup) {name : Name} {source : List Char}
    (h : (name, source) ∈ texts) {u : Tree} (hu : treeOf texts name = some u) :
    ∃ p, Pattern.compile source = .ok p ∧ p.root = u := by
  simp only [treeOf, Table.get?_of_mem hn h, Option.bind_some] at hu
  cases hc : Pattern.compile source with
  | error e => simp [hc, Except.toOption] at hu
  | ok p =>
    simp only [hc, Except.toOption, Option.map_some, Option.some.injEq] at hu
    exact ⟨p, rfl, hu⟩

theorem numbers_of_build (hn : texts.keys.Nodup)
    (h : build (Definition.ofTexts texts) = .ok b) : b.Numbers texts := by
  obtain ⟨t, hkeys, hget, htable⟩ := exists_table_of_build h
  obtain ⟨-, hnames, hrules⟩ := ofTable_eq_ok htable
  have hslot {name : Name} {k : Int} :
      b.slotOf name = some k ↔ ∃ i : Nat, k = i ∧ ∃ source, texts[i]? = some (name, source) :=
    slotOf_eq_some_iff hn (hnames.trans hkeys)
  have hlength : t.length = texts.length := by
    simpa [Table.keys] using congrArg List.length hkeys
  refine ⟨by rw [hrules, List.length_map, hlength], fun {i name source} he => ?_, hslot.mp, ?_⟩
  · refine ⟨hslot.mpr ⟨i, rfl, source, he⟩, ?_⟩
    -- the table of trees has the same name in this place
    have hi : i < t.length := hlength ▸ (List.getElem?_eq_some_iff.mp he).1
    have hname : t.keys[i]? = some name := by
      rw [hkeys, Table.keys, List.getElem?_map, he]
      rfl
    have hentry : t[i]? = some (name, (t[i]).2) := by
      rw [Table.keys, List.getElem?_map, List.getElem?_eq_getElem hi, Option.map_some,
        Option.some.injEq] at hname
      rw [List.getElem?_eq_getElem hi, ← hname]
    have htree : treeOf texts name = some (t[i]).2 := by
      rw [← hget]
      exact Table.get?_of_mem (hkeys ▸ hn) (List.mem_of_getElem? hentry)
    obtain ⟨p, hp, hroot⟩ := treeOf_eq_some hn (List.mem_of_getElem? he) htree
    refine ⟨p, p.root.link b.slotOf, hp, ?_, Tree.alike_link _ _⟩
    rw [hrules, List.getElem?_map, hentry, hroot]
    rfl
  · intro name
    rw [Option.eq_none_iff_forall_ne_some, Option.eq_none_iff_forall_ne_some]
    constructor
    · intro hnone source hsource
      obtain ⟨i, hi⟩ := List.getElem?_of_mem (Table.mem_of_get? hsource)
      exact hnone i (hslot.mpr ⟨i, rfl, source, hi⟩)
    · intro hnone k hk
      obtain ⟨i, -, source, hi⟩ := hslot.mp hk
      exact hnone source (Table.get?_of_mem hn (List.mem_of_getElem? hi))

/-- The rules of a rulebook are linked with it. -/
theorem resolved_of_mem_rules {ds : Table Name Definition} (h : build ds = .ok b) {rule : Tree}
    (hrule : rule ∈ b.rules) : rule.Resolved b.slotOf := by
  obtain ⟨t, -, -, htable⟩ := exists_table_of_definitions h
  obtain ⟨-, -, hrules⟩ := ofTable_eq_ok htable
  rw [hrules] at hrule
  obtain ⟨e, -, rfl⟩ := List.mem_map.mp hrule
  exact Tree.resolved_link _ _

/-- Texts are accepted exactly if their names are identifiers, all of them are patterns, and no name
leads back to itself. -/
theorem exists_build_ofTexts_iff (hn : texts.keys.Nodup) :
    (∃ b, build (Definition.ofTexts texts) = .ok b) ↔
      (∀ e ∈ texts, isIdentifier e.1 = true ∧ ∃ p, Pattern.compile e.2 = .ok p) ∧
      ∀ a, ¬Relation.TransGen (Depends (treeOf texts)) a a := by
  rw [exists_build_iff (by rwa [keys_ofTexts]), definedTree_ofTexts]
  refine and_congr_left' ?_
  simp only [Definition.ofTexts, List.forall_mem_map]
  rfl

end Rulebook

end Coinage
