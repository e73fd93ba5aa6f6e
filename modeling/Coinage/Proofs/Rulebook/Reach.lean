import Coinage.Proofs.Rulebook.Resolution

/-!
# What a tree reaches

A tree reaches its own nodes, whatever the bounds around them are, and through every reference to a
name with a tree the nodes of that tree.
-/

namespace Coinage

/-- The nodes that a tree reaches, where `rules` gives the trees of names. -/
inductive Reaches (rules : Name → Option Tree) (t : Tree) : Tree → Prop
  | refl : Reaches rules t t
  | choice {u : Tree} {ts : List Tree} {b : Bounds} :
      Reaches rules t (.choice ts b) → u ∈ ts → Reaches rules t u
  | sequence {u : Tree} {ts : List Tree} {b : Bounds} :
      Reaches rules t (.sequence ts b) → u ∈ ts → Reaches rules t u
  | rule {u : Tree} {name : Name} {b : Bounds} {slot : Option Int} :
      Reaches rules t (.reference name b slot) → rules name = some u → Reaches rules t u

def ReachesName (rules : Name → Option Tree) (t : Tree) (name : Name) : Prop :=
  ∃ b slot, Reaches rules t (.reference name b slot)

variable {rules : Name → Option Tree} {t u v : Tree} {name : Name}

theorem Reaches.trans (h : Reaches rules t u) (h' : Reaches rules u v) : Reaches rules t v := by
  induction h' with
  | refl => exact h
  | choice _ hu ih => exact ih.choice hu
  | sequence _ hu ih => exact ih.sequence hu
  | rule _ hr ih => exact ih.rule hr

theorem Reaches.reachesName (h : Reaches rules t u) (hn : ReachesName rules u name) :
    ReachesName rules t name := by
  obtain ⟨b, slot, hr⟩ := hn
  exact ⟨b, slot, h.trans hr⟩

/-- A child of a choice or of a sequence is reached from it. -/
theorem Reaches.of_mem_choice {ts : List Tree} {b : Bounds} (hu : u ∈ ts) :
    Reaches rules (.choice ts b) u :=
  .choice .refl hu

theorem Reaches.of_mem_sequence {ts : List Tree} {b : Bounds} (hu : u ∈ ts) :
    Reaches rules (.sequence ts b) u :=
  .sequence .refl hu

/-- Names that include those of the tree and those of their own rules include all that is reached.
-/
theorem ReachesName.of_closed {N : Name → Prop} (ht : ∀ n, t.Mentions n → N n)
    (hrules : ∀ n u m, N n → rules n = some u → u.Mentions m → N m)
    (h : ReachesName rules t name) : N name := by
  have hnode {u : Tree} (hu : Reaches rules t u) : ∀ n, u.Mentions n → N n := by
    induction hu with
    | refl => exact ht
    | choice _ hu ih => exact fun n hn => ih n (.choice hu hn)
    | sequence _ hu ih => exact fun n hn => ih n (.sequence hu hn)
    | rule _ hr ih => exact fun n hn => hrules _ _ n (ih _ .reference) hr hn
  obtain ⟨b, slot, hr⟩ := h
  exact hnode hr name .reference

theorem ReachesName.reference {b : Bounds} {slot : Option Int} :
    ReachesName rules (.reference name b slot) name :=
  ⟨b, slot, .refl⟩

end Coinage
