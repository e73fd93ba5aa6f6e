import Coinage.Proofs.Rulebook.Resolution

/-!
# Which definitions make a rulebook

Definitions are accepted exactly if all names are identifiers, all definitions are patterns and no
name leads back to itself. None of this depends on the order of the definitions.
-/

namespace Coinage

open Relation

/-- The name is an identifier and its definition is a pattern. -/
def Legible (e : Name × Definition) : Prop :=
  isIdentifier e.1 = true ∧ ∃ p, e.2.pattern = .ok p

/-- The tree of `a` mentions `b`, which has a tree too. -/
def Depends (rules : Name → Option Tree) (a b : Name) : Prop :=
  (∃ u, rules a = some u ∧ u.Mentions b) ∧ ∃ v, rules b = some v

namespace Rulebook

theorem refers_eq_depends (t : Table Name Tree) : Refers t = Depends (fun name => t.get? name) := by
  funext a b
  rw [Refers, Depends, Table.mem_keys_iff]

/-- A table of trees makes a rulebook exactly if its graph has no cycle. -/
theorem exists_ofTable_iff {t : Table Name Tree} (hn : t.keys.Nodup) :
    (∃ b, ofTable t = .ok b) ↔ ∀ a, ¬TransGen (Refers t) a a := by
  constructor
  · rintro ⟨b, hb⟩ a ha
    obtain ⟨rank, -, hr⟩ := exists_rank_of_firstCycle? (ofTable_eq_ok hb).1
    exact Nat.lt_irrefl _ (rank_lt_of_transGen hr ha)
  · intro h
    simp only [ofTable]
    split
    · rename_i c hc
      obtain ⟨a, ha⟩ := (isCycle_of_firstCycle? hn hc).exists_transGen
      exact absurd ha (h a)
    · exact ⟨_, rfl⟩

@[simp] theorem exists_readEntry_iff {e : Name × Definition} :
    (∃ e', readEntry e = .ok e') ↔ Legible e := by
  constructor
  · rintro ⟨e', he⟩
    obtain ⟨hid, p, hp, -⟩ := readEntry_eq_ok.mp he
    exact ⟨hid, p, hp⟩
  · rintro ⟨hid, p, hp⟩
    exact ⟨_, readEntry_eq_ok.mpr ⟨hid, p, hp, rfl⟩⟩

@[simp] theorem exists_mapM_readEntry_iff {ds : Table Name Definition} :
    (∃ t, ds.mapM readEntry = .ok t) ↔ ∀ e ∈ ds, Legible e := by
  rw [exists_mapM_eq_ok_iff]
  exact forall₂_congr fun _ _ => exists_readEntry_iff

/-- A definition is refused for its name, or else for its text. -/
theorem readEntry_eq_error {e : Name × Definition} {r : Refusal} :
    readEntry e = .error r ↔
      isIdentifier e.1 = false ∧ r = .pattern ⟨.badIdentifier, e.1, 0⟩ ∨
        isIdentifier e.1 = true ∧ e.2.pattern = .error r := by
  simp only [readEntry]
  cases hid : isIdentifier e.1 with
  | false => simp [eq_comm]
  | true => cases e.2.pattern <;> simp [bind, Except.bind, pure, Except.pure]

/-- Definitions are refused where the first of them is. -/
@[simp] theorem build_eq_refused_iff {ds : Table Name Definition} {r : Refusal} :
    build ds = .error (.refused r) ↔ FirstError readEntry ds r := by
  rw [← mapM_eq_error_iff]
  simp only [build]
  cases ds.mapM readEntry with
  | error r' => simp
  | ok t =>
    simp only [ofTable]
    split <;> simp

/-- Definitions that are all legible make no rulebook if and only if a name leads back to itself. -/
theorem exists_build_eq_cyclic_iff {ds : Table Name Definition} :
    (∃ c, build ds = .error (.cyclic c)) ↔
      (∀ e ∈ ds, Legible e) ∧ ∃ a, TransGen (Depends (definedTree ds)) a a := by
  rw [← exists_mapM_readEntry_iff]
  cases ht : ds.mapM readEntry with
  | error e => simp [build, ht]
  | ok t =>
    have hgraph : Refers t = Depends (definedTree ds) := by
      rw [refers_eq_depends, funext (mapM_readEntry_eq_ok ht).2]
    rw [← hgraph, ← exists_firstCycle?_iff]
    simp [build, ht]

theorem legible_of_build {ds : Table Name Definition} {b : Rulebook} (h : build ds = .ok b) :
    ∀ e ∈ ds, Legible e := by
  simp only [build] at h
  split at h
  · cases h
  · rename_i t ht
    exact exists_mapM_readEntry_iff.mp ⟨t, ht⟩

theorem exists_build_iff {ds : Table Name Definition} (hn : ds.keys.Nodup) :
    (∃ b, build ds = .ok b) ↔
      (∀ e ∈ ds, Legible e) ∧ ∀ a, ¬TransGen (Depends (definedTree ds)) a a := by
  rw [← exists_mapM_readEntry_iff]
  cases ht : ds.mapM readEntry with
  | error e => simp [build, ht]
  | ok t =>
    obtain ⟨hk, hg⟩ := mapM_readEntry_eq_ok ht
    have hgraph : Refers t = Depends (definedTree ds) := by
      rw [refers_eq_depends, funext hg]
    rw [← hgraph, ← exists_ofTable_iff (hk ▸ hn)]
    simp [build, ht]

theorem definedTree_of_perm {ds ds' : Table Name Definition} (hn : ds.keys.Nodup)
    (h : ds.Perm ds') : definedTree ds' = definedTree ds := by
  funext name
  rw [definedTree, Table.get?_of_perm hn h, definedTree]

/-- Reordering definitions does not change whether they are accepted. -/
theorem exists_build_iff_of_perm {ds ds' : Table Name Definition} (hn : ds.keys.Nodup)
    (h : ds.Perm ds') : (∃ b, build ds' = .ok b) ↔ ∃ b, build ds = .ok b := by
  have hn' : ds'.keys.Nodup := (h.map Prod.fst).nodup hn
  rw [exists_build_iff hn, exists_build_iff hn', definedTree_of_perm hn h]
  simp only [h.mem_iff]

end Rulebook

end Coinage
