import Coinage.Proofs.Pattern.Derivation
import Coinage.Proofs.Tree

/-!
# The shape of patterns

What holds of every node of a tree that comes from a pattern: its bounds are in order, a particle
is one character, an alternation has something to choose from.
-/

namespace Coinage

open Grammar

structure Bounds.Valid (b : Bounds) : Prop where
  nonneg : 0 ≤ b.lo
  le : b.lo ≤ b.hi

namespace Tree

/-- A tree in the shape that patterns have, whatever the slots of its references are. -/
inductive Shaped : Tree → Prop
  | particle {c : Char} {b : Bounds} : b.Valid → Shaped (particle [c] b)
  | reference {name : Name} {b : Bounds} {slot : Option Int} : b.Valid →
      Shaped (reference name b slot)
  | choice {ts : List Tree} {b : Bounds} : b.Valid → ts ≠ [] → (∀ t ∈ ts, Shaped t) →
      Shaped (choice ts b)
  | sequence {ts : List Tree} {b : Bounds} : b.Valid → (∀ t ∈ ts, Shaped t) →
      Shaped (sequence ts b)

theorem Shaped.isProper {t : Tree} (h : t.Shaped) : t.isProper = true := by
  induction h with
  | particle => rfl
  | reference => rfl
  | choice _ _ _ ih => exact areProper_iff.mpr ih
  | sequence _ _ ih => exact areProper_iff.mpr ih

theorem Shaped.of_hasNode {t u : Tree} (h : t.Shaped) (hu : t.HasNode u) : u.Shaped := by
  induction hu with
  | self => exact h
  | choice _ hv ih =>
    cases ih with
    | choice _ _ hts => exact hts _ hv
  | sequence _ hv ih =>
    cases ih with
    | sequence _ hts => exact hts _ hv

theorem Shaped.link?_eq {t : Tree} (h : t.Shaped) (slotOf : Name → Option Int) :
    t.link? slotOf = some (t.link slotOf) :=
  if_pos h.isProper

end Tree

theorem Grammar.Suffix.valid {s r : List Char} {b : Bounds} (h : Suffix s b r) : b.Valid := by
  cases h with
  | none => exact ⟨by decide, by decide⟩
  | optional => exact ⟨by decide, by decide⟩
  | braces _ _ hle => exact ⟨Int.natCast_nonneg _, Int.ofNat_le.mpr hle⟩

theorem Grammar.Tokens.shaped {closers s r : List Char} {ts : List Tree}
    (h : Tokens closers s ts r) : ∀ t ∈ ts, t.Shaped := by
  have hone : Bounds.Valid ⟨1, 1⟩ := ⟨by decide, by decide⟩
  induction h with
  | nothing => simp
  | escaped _ _ ih => exact List.forall_mem_cons.mpr ⟨.particle hone, ih⟩
  | choice _ _ _ hb _ ihu ih =>
    exact List.forall_mem_cons.mpr ⟨.choice hb.valid (List.cons_ne_nil _ _) ihu, ih⟩
  | sequence _ _ _ hb _ ihu ih => exact List.forall_mem_cons.mpr ⟨.sequence hb.valid ihu, ih⟩
  | reference _ _ hb _ ih => exact List.forall_mem_cons.mpr ⟨.reference hb.valid, ih⟩
  | plain _ _ hb _ ih => exact List.forall_mem_cons.mpr ⟨.particle hb.valid, ih⟩

/-- The root of a pattern is a sequence that is run once, of trees in shape. -/
theorem Pattern.root_eq_sequence {s : List Char} {p : Pattern} (h : Pattern.compile s = .ok p) :
    ∃ ts, p.root = .sequence ts ⟨1, 1⟩ ∧ ∀ t ∈ ts, t.Shaped := by
  obtain ⟨-, ts, hts, hroot⟩ := derives_of_compile h
  exact ⟨ts, hroot, hts.shaped⟩

theorem Pattern.shaped_root {s : List Char} {p : Pattern} (h : Pattern.compile s = .ok p) :
    p.root.Shaped := by
  obtain ⟨ts, hroot, hts⟩ := root_eq_sequence h
  rw [hroot]
  exact .sequence ⟨by decide, by decide⟩ hts

end Coinage
