import Coinage.Tree
import Mathlib.Data.List.Basic

/-!
# Induction on trees

A property that every node inherits from its children holds of all trees. The operations on lists
of trees are those on single trees, done one after the other.
-/

namespace Coinage

namespace Tree

@[elab_as_elim, induction_eliminator]
theorem induct {motive : Tree → Prop} (particle : ∀ v b, motive (particle v b))
    (reference : ∀ name b slot, motive (reference name b slot))
    (choice : ∀ ts b, (∀ t ∈ ts, motive t) → motive (choice ts b))
    (sequence : ∀ ts b, (∀ t ∈ ts, motive t) → motive (sequence ts b))
    (stray : ∀ b, motive (stray b)) (t : Tree) : motive t :=
  @Tree.rec motive (fun ts => ∀ t ∈ ts, motive t) particle reference choice sequence stray
    (fun _ h => absurd h List.not_mem_nil)
    (fun _ _ ht hts _ hu => (List.mem_cons.mp hu).elim (fun e => e ▸ ht) (hts _)) t

def bounds : Tree → Bounds
  | particle _ b | reference _ b _ | choice _ b | sequence _ b | stray b => b

@[simp] theorem linkAll_eq_map (slotOf : Name → Option Int) (ts : List Tree) :
    linkAll slotOf ts = ts.map (link slotOf) := by
  induction ts with
  | nil => rfl
  | cons t ts ih => simp [linkAll, ih]

@[simp] theorem link_particle (slotOf : Name → Option Int) (v : List Char) (b : Bounds) :
    (particle v b).link slotOf = particle v b := rfl

@[simp] theorem link_reference (slotOf : Name → Option Int) (name : Name) (b : Bounds)
    (slot : Option Int) :
    (reference name b slot).link slotOf = reference name b (slotOf name) := rfl

@[simp] theorem link_stray (slotOf : Name → Option Int) (b : Bounds) :
    (stray b).link slotOf = stray b := rfl

@[simp] theorem link_choice (slotOf : Name → Option Int) (ts : List Tree) (b : Bounds) :
    (choice ts b).link slotOf = choice (ts.map (link slotOf)) b := by
  rw [link, linkAll_eq_map]

@[simp] theorem link_sequence (slotOf : Name → Option Int) (ts : List Tree) (b : Bounds) :
    (sequence ts b).link slotOf = sequence (ts.map (link slotOf)) b := by
  rw [link, linkAll_eq_map]

@[simp]
theorem referencesAll_eq_flatMap (ts : List Tree) : referencesAll ts = ts.flatMap references := by
  induction ts with
  | nil => rfl
  | cons t ts ih => simp [referencesAll, ih]

@[simp]
theorem areProper_iff {ts : List Tree} : areProper ts = true ↔ ∀ t ∈ ts, t.isProper = true := by
  induction ts with
  | nil => simp [areProper]
  | cons t ts ih => simp [areProper, ih]

/-- The tree has a reference to the name somewhere, whatever the bounds around it are. -/
inductive Mentions (name : Name) : Tree → Prop
  | reference {b : Bounds} {slot : Option Int} : Mentions name (reference name b slot)
  | choice {t : Tree} {ts : List Tree} {b : Bounds} : t ∈ ts → Mentions name t →
      Mentions name (choice ts b)
  | sequence {t : Tree} {ts : List Tree} {b : Bounds} : t ∈ ts → Mentions name t →
      Mentions name (sequence ts b)

@[simp]
theorem mem_references_iff {name : Name} {t : Tree} : name ∈ t.references ↔ t.Mentions name := by
  induction t with
  | particle v b =>
    simp only [references, List.not_mem_nil, false_iff]
    rintro ⟨⟩
  | reference n b slot =>
    simp only [references, List.mem_singleton]
    constructor
    · rintro rfl
      exact .reference
    · rintro ⟨⟩
      rfl
  | choice ts b ih =>
    simp only [references, referencesAll_eq_flatMap, List.mem_flatMap]
    constructor
    · rintro ⟨t, ht, h⟩
      exact .choice ht ((ih t ht).mp h)
    · rintro (_ | ⟨ht, h⟩ | _)
      exact ⟨_, ht, (ih _ ht).mpr h⟩
  | sequence ts b ih =>
    simp only [references, referencesAll_eq_flatMap, List.mem_flatMap]
    constructor
    · rintro ⟨t, ht, h⟩
      exact .sequence ht ((ih t ht).mp h)
    · rintro (_ | _ | ⟨ht, h⟩)
      exact ⟨_, ht, (ih _ ht).mpr h⟩
  | stray b =>
    simp only [references, List.not_mem_nil, false_iff]
    rintro ⟨⟩

@[simp] theorem references_link (slotOf : Name → Option Int) (t : Tree) :
    (t.link slotOf).references = t.references := by
  induction t with
  | particle v b => rfl
  | reference n b slot => rfl
  | choice ts b ih =>
    simpa [references, List.flatMap_map] using List.flatMap_congr ih
  | sequence ts b ih =>
    simpa [references, List.flatMap_map] using List.flatMap_congr ih
  | stray b => rfl

@[simp] theorem mentions_link_iff {slotOf : Name → Option Int} {name : Name} {t : Tree} :
    (t.link slotOf).Mentions name ↔ t.Mentions name := by
  rw [← mem_references_iff, references_link, mem_references_iff]

inductive HasNode (t : Tree) : Tree → Prop
  | self : HasNode t t
  | choice {u : Tree} {ts : List Tree} {b : Bounds} : HasNode t (choice ts b) → u ∈ ts →
      HasNode t u
  | sequence {u : Tree} {ts : List Tree} {b : Bounds} : HasNode t (sequence ts b) → u ∈ ts →
      HasNode t u

theorem isProper_of_hasNode {t u : Tree} (h : t.isProper = true) (hu : t.HasNode u) :
    u.isProper = true := by
  induction hu with
  | self => exact h
  | choice _ hv ih => exact areProper_iff.mp ih _ hv
  | sequence _ hv ih => exact areProper_iff.mp ih _ hv

/-- The nodes of a linked tree are the nodes of the tree, linked. -/
theorem hasNode_link_iff {slotOf : Name → Option Int} {t v : Tree} :
    (t.link slotOf).HasNode v ↔ ∃ u, t.HasNode u ∧ v = u.link slotOf := by
  constructor
  · intro h
    induction h with
    | self => exact ⟨t, .self, rfl⟩
    | choice _ hv ih =>
      obtain ⟨u, hu, hlink⟩ := ih
      cases u with
      | choice us b =>
        rw [link_choice] at hlink
        cases hlink
        obtain ⟨w, hw, rfl⟩ := List.mem_map.mp hv
        exact ⟨w, .choice hu hw, rfl⟩
      | _ => cases hlink
    | sequence _ hv ih =>
      obtain ⟨u, hu, hlink⟩ := ih
      cases u with
      | sequence us b =>
        rw [link_sequence] at hlink
        cases hlink
        obtain ⟨w, hw, rfl⟩ := List.mem_map.mp hv
        exact ⟨w, .sequence hu hw, rfl⟩
      | _ => cases hlink
  · rintro ⟨u, hu, rfl⟩
    induction hu with
    | self => exact .self
    | choice _ hu ih =>
      rw [link_choice] at ih
      exact .choice ih (List.mem_map_of_mem hu)
    | sequence _ hu ih =>
      rw [link_sequence] at ih
      exact .sequence ih (List.mem_map_of_mem hu)

/-- Linking changes slots only. -/
@[simp]
theorem alike_link (slotOf : Name → Option Int) (t : Tree) : (t.link slotOf).alike t = true := by
  have halike (ts : List Tree) (h : ∀ u ∈ ts, (u.link slotOf).alike u = true) :
      alikeAll (ts.map (link slotOf)) ts = true := by
    induction ts with
    | nil => rfl
    | cons u ts ih =>
      obtain ⟨hhead, htail⟩ := List.forall_mem_cons.mp h
      simp only [List.map_cons, alikeAll, hhead, ih htail, Bool.and_self]
  induction t with
  | particle v b => simp [alike]
  | reference n b slot => simp [alike]
  | choice ts b ih => simp [alike, halike ts ih]
  | sequence ts b ih => simp [alike, halike ts ih]
  | stray b => simp [alike]

end Tree

end Coinage
