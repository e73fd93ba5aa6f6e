import Coinage.Proofs.Tree

/-!
# The nodes of a tree in order

A node is met before its children, and these one after the other, a level deeper. So all nodes of a
tree are met.
-/

namespace Coinage

namespace Tree

def children : Tree → List Tree
  | particle .. => []
  | reference .. => []
  | choice ts _ => ts
  | sequence ts _ => ts
  | stray _ => []

def bare : Tree → Tree
  | choice _ b => choice [] b
  | sequence _ b => sequence [] b
  | t => t

theorem eq_of_bare_eq {t u : Tree} (h : t.bare = u.bare) (hc : t.children = u.children) :
    t = u := by
  cases t <;> cases u <;> simp_all [bare, children]

/-- What holds of a node if it holds of its children holds of every tree. -/
theorem induct_children {motive : Tree → Prop}
    (step : ∀ t : Tree, (∀ u ∈ t.children, motive u) → motive t) (t : Tree) : motive t := by
  induction t with
  | particle v b => exact step _ (by simp [children])
  | reference name b slot => exact step _ (by simp [children])
  | choice ts b ih => exact step _ ih
  | sequence ts b ih => exact step _ ih
  | stray b => exact step _ (by simp [children])

mutual

/-- The nodes of a tree whose root is at the given level, with their levels, a node before its
children. -/
def preorder (level : Nat) : Tree → List (Nat × Tree)
  | particle v b => [(level, particle v b)]
  | reference name b slot => [(level, reference name b slot)]
  | choice ts b => (level, choice ts b) :: preorderAll (level + 1) ts
  | sequence ts b => (level, sequence ts b) :: preorderAll (level + 1) ts
  | stray b => [(level, stray b)]

/-- The nodes of the trees, one tree after the other. -/
def preorderAll (level : Nat) : List Tree → List (Nat × Tree)
  | [] => []
  | t :: ts => t.preorder level ++ preorderAll level ts

end

@[simp] theorem preorderAll_eq_flatMap (level : Nat) (ts : List Tree) :
    preorderAll level ts = ts.flatMap (preorder level) := by
  induction ts with
  | nil => rfl
  | cons t ts ih => simp [preorderAll, ih]

theorem preorder_eq (level : Nat) (t : Tree) :
    t.preorder level = (level, t) :: t.children.flatMap (preorder (level + 1)) := by
  cases t <;> simp [preorder, children]

theorem HasNode.trans {t u v : Tree} (h : t.HasNode u) (h' : u.HasNode v) : t.HasNode v := by
  induction h' with
  | self => exact h
  | choice _ hv ih => exact .choice ih hv
  | sequence _ hv ih => exact .sequence ih hv

theorem HasNode.of_mem_children {t u : Tree} (h : u ∈ t.children) : t.HasNode u := by
  cases t with
  | choice ts b => exact .choice .self h
  | sequence ts b => exact .sequence .self h
  | _ => cases h

theorem mem_preorder_of_mem_children {t u v : Tree} {level l : Nat}
    (hu : (l, u) ∈ t.preorder level) (hv : v ∈ u.children) : (l + 1, v) ∈ t.preorder level := by
  induction t using induct_children generalizing level with
  | step t ih =>
    rw [preorder_eq] at hu ⊢
    rcases List.mem_cons.mp hu with heq | hu
    · cases heq
      refine List.mem_cons_of_mem _ (List.mem_flatMap.mpr ⟨v, hv, ?_⟩)
      rw [preorder_eq]
      exact List.mem_cons_self
    · obtain ⟨w, hw, hu⟩ := List.mem_flatMap.mp hu
      exact List.mem_cons_of_mem _ (List.mem_flatMap.mpr ⟨w, hw, ih w hw hu⟩)

/-- The nodes that are met are all nodes of the tree. -/
theorem hasNode_iff_mem_preorder {t u : Tree} {level : Nat} :
    t.HasNode u ↔ ∃ l, (l, u) ∈ t.preorder level := by
  constructor
  · intro h
    induction h with
    | self => exact ⟨level, by rw [preorder_eq]; exact List.mem_cons_self⟩
    | choice _ hu ih =>
      obtain ⟨l, hl⟩ := ih
      exact ⟨l + 1, mem_preorder_of_mem_children hl hu⟩
    | sequence _ hu ih =>
      obtain ⟨l, hl⟩ := ih
      exact ⟨l + 1, mem_preorder_of_mem_children hl hu⟩
  · rintro ⟨l, hl⟩
    induction t using induct_children generalizing level with
    | step t ih =>
      rw [preorder_eq] at hl
      rcases List.mem_cons.mp hl with heq | hl
      · cases heq
        exact .self
      · obtain ⟨w, hw, hl⟩ := List.mem_flatMap.mp hl
        exact (HasNode.of_mem_children hw).trans (ih w hw hl)

end Tree

end Coinage
