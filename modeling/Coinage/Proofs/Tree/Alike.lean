import Coinage.Chance.Twister
import Coinage.Generation
import Coinage.Proofs.Tree.Outline
import Mathlib

/-!
# Linking forgets slots

Linking makes the same tree of two trees exactly if they are alike, which is to say that they differ
in their slots at most. So the slots that a tree had before do not matter once it is linked, and
nothing else of it is lost: its names and its outline stay as they are.
-/

namespace Coinage

namespace Tree

variable {slotOf slotOf' : Name → Option Int} {t u : Tree}

theorem map_link_eq_iff {ts us : List Tree}
    (h : ∀ t ∈ ts, ∀ u, t.link slotOf = u.link slotOf ↔ t.alike u = true) :
    ts.map (link slotOf) = us.map (link slotOf) ↔ alikeAll ts us = true := by
  induction ts generalizing us with
  | nil => cases us <;> simp [alikeAll]
  | cons t ts ih =>
    obtain ⟨hhead, htail⟩ := List.forall_mem_cons.mp h
    cases us with
    | nil => simp [alikeAll]
    | cons u us =>
      rw [List.map_cons, List.map_cons, List.cons.injEq, hhead, ih htail, alikeAll,
        Bool.and_eq_true]

/-- Trees that are linked to the same tree are alike, and the other way round. -/
@[simp] theorem link_eq_link_iff : t.link slotOf = u.link slotOf ↔ t.alike u = true := by
  induction t generalizing u with
  | particle v b => cases u <;> simp [alike]
  | reference name b slot =>
    cases u with
    | reference name' b' slot' =>
      simp only [link_reference, alike, reference.injEq, Bool.decide_and, Bool.and_eq_true,
        decide_eq_true_eq]
      -- the slots are equal if the names are
      constructor
      · rintro ⟨hname, hbounds, -⟩
        exact ⟨hname, hbounds⟩
      · rintro ⟨rfl, rfl⟩
        exact ⟨rfl, rfl, rfl⟩
    | _ => simp [alike]
  | choice ts b ih =>
    cases u with
    | choice us b' =>
      simp [map_link_eq_iff fun t ht u => ih t ht, alike]
    | _ => simp [alike]
  | sequence ts b ih =>
    cases u with
    | sequence us b' =>
      simp [map_link_eq_iff fun t ht u => ih t ht, alike]
    | _ => simp [alike]
  | stray b => cases u <;> simp [alike]

/-- Linking again is as good as linking in another way at once. -/
@[simp] theorem link_link (slotOf slotOf' : Name → Option Int) (t : Tree) :
    (t.link slotOf).link slotOf' = t.link slotOf' :=
  link_eq_link_iff.mpr (alike_link slotOf t)

@[simp] theorem isProper_link (slotOf : Name → Option Int) (t : Tree) :
    (t.link slotOf).isProper = t.isProper := by
  have hall (ts : List Tree) (h : ∀ t ∈ ts, (t.link slotOf).isProper = t.isProper) :
      areProper (ts.map (link slotOf)) = areProper ts := by
    rw [Bool.eq_iff_iff, areProper_iff, areProper_iff, List.forall_mem_map]
    exact forall₂_congr fun t ht => by rw [h t ht]
  induction t with
  | particle v b => rfl
  | reference name b slot => rfl
  | choice ts b ih => simp [isProper, hall ts ih]
  | sequence ts b ih => simp [isProper, hall ts ih]
  | stray b => rfl

@[simp] theorem outline_link (slotOf : Name → Option Int) (t : Tree) (level : Int) :
    (t.link slotOf).outline level = t.outline level := by
  induction t generalizing level with
  | particle v b => rfl
  | reference name b slot => rfl
  | choice ts b ih =>
    simp [outline, List.flatMap_map, List.flatMap_congr fun t ht => ih t ht (level + 1)]
  | sequence ts b ih =>
    simp [outline, List.flatMap_map, List.flatMap_congr fun t ht => ih t ht (level + 1)]
  | stray b => rfl

theorem isProper_congr (h : t.alike u = true) : t.isProper = u.isProper := by
  have hlink : t.link (fun _ => none) = u.link fun _ => none := link_eq_link_iff.mpr h
  rw [← isProper_link (fun _ => none) t, hlink, isProper_link]

theorem link?_congr (h : t.alike u = true) (slotOf : Name → Option Int) :
    t.link? slotOf = u.link? slotOf := by
  rw [link?, link?, isProper_congr h, link_eq_link_iff.mpr h]

end Tree

variable {ρ : Type} [Draws ρ]

theorem Setting.generate_congr {t u : Tree} (h : t.alike u = true) (s : Setting) :
    (s.generate t : EStateM Abort (Run ρ) _) = s.generate u := by
  funext r
  rw [generate, generate, Tree.link?_congr h]

theorem Setting.generateBatch_congr {t u : Tree} (h : t.alike u = true) (s : Setting)
    (count : Int) : (s.generateBatch t count : EStateM Abort (Run ρ) _) =
      s.generateBatch u count := by
  funext r
  rw [generateBatch, generateBatch, Tree.link?_congr h]

/-- Linking forgets the slots that a tree had, and nothing else. Trees of the four kinds of nodes
can be linked. They are linked to the same tree exactly if they are alike; a tree that is linked in
one way and then in another is as if it had been linked in the second way only; and linking keeps
the names that the tree refers to, in their order, and its outline. So in every setting and every
state alike trees make the same words, one at a time or in batches, or fail alike, and leave the
same text and draws behind. -/
theorem linking_forgets_slots {t u : Tree} (ht : t.isProper = true) (hu : u.isProper = true)
    (slotOf slotOf' : Name → Option Int) :
    (t.link? slotOf = u.link? slotOf ↔ t.alike u = true) ∧
      (∃ t', t.link? slotOf = some t' ∧ t'.link? slotOf' = t.link? slotOf' ∧
        t'.references = t.references ∧ ∀ level, t'.outline? level = t.outline? level) ∧
      (t.alike u = true → ∀ (s : Setting) (r : Run ρ), s.generate t r = s.generate u r ∧
        ∀ count, s.generateBatch t count r = s.generateBatch u count r) := by
  refine ⟨?_, ⟨t.link slotOf, if_pos ht, ?_, Tree.references_link slotOf t, fun level => ?_⟩, ?_⟩
  · rw [Tree.link?, Tree.link?, if_pos ht, if_pos hu, Option.some_inj, Tree.link_eq_link_iff]
  · rw [Tree.link?, Tree.link?, Tree.isProper_link, Tree.link_link]
  · rw [Tree.outline?, Tree.outline?, Tree.isProper_link, Tree.outline_link]
  · intro h s r
    rw [Setting.generate_congr h]
    exact ⟨rfl, fun count => by rw [Setting.generateBatch_congr h]⟩

/-- Two trees with slots that belong to no rule, the second with a slot where the first has none. -/
theorem linking_forgets_slots_stale :
    let t : Tree := .sequence [.reference ['v'] ⟨2, 2⟩ (some 7),
      .choice [.reference ['w'] .once none] ⟨0, 0⟩] .once
    let u : Tree := .sequence [.reference ['v'] ⟨2, 2⟩ none,
      .choice [.reference ['w'] .once (some (-1))] ⟨0, 0⟩] .once
    let s : Setting := ⟨7, ⟨[['v']], [.sequence [.particle ['e'] .once] .once]⟩, 5, none⟩
    let r : Run Twister := ⟨.ofSeed 7, #['x']⟩
    t ≠ u ∧ t.alike u = true ∧ t.link? s.book.slotOf = u.link? s.book.slotOf ∧
      s.generate u r = .ok ['e', 'e'] { r with text := #['x', 'e', 'e'] } ∧
      s.generate t r = s.generate u r := by
  intro t u s r
  have halike : t.alike u = true := by decide
  have hword : s.generate u r = .ok ['e', 'e'] { r with text := #['x', 'e', 'e'] } := by rfl
  obtain ⟨hlink, -, hsame⟩ := linking_forgets_slots (ρ := Twister) (t := t) (u := u) (by decide)
    (by decide) s.book.slotOf s.book.slotOf
  exact ⟨by simp [t, u], halike, hlink.mpr halike, hword, (hsame halike s r).1⟩

end Coinage
