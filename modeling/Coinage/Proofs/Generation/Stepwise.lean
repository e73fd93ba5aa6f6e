import Coinage.Proofs.Generation.Acts

/-!
# What every step keeps

Expansions are put together from a few steps. A relation between actions that holds of every step
and of all that is put together from related actions holds of expansions, in two settings as well,
if it holds where the first one is cut off and where rules are looked up.
-/

namespace Coinage

variable {ρ : Type} [Draws ρ]

/-- The relation holds of the steps of expansions, each related to itself, and goes on from one
action to the next. -/
structure Stepwise (R : ∀ {α : Type}, Act ρ α → Act ρ α → Prop) : Prop where
  pure {α : Type} (a : α) : R (pure a) (pure a)
  bind {α β : Type} {x y : Act ρ α} {f g : α → Act ρ β} :
    R x y → (∀ a, R (f a) (g a)) → R (x >>= f) (y >>= g)
  emit (v : List Char) : R (Act.emit v) (Act.emit v)
  count (b : Bounds) : R (Act.count b) (Act.count b)
  pick (t : Tree) (ts : List Tree) : R (Act.pick t ts) (Act.pick t ts)
  emptyChoice : @R Int (throw .emptyChoice) (throw .emptyChoice)
  notANode : @R Int (throw .notANode) (throw .notANode)

namespace Stepwise

variable {R : ∀ {α : Type}, Act ρ α → Act ρ α → Prop} (hR : Stepwise R)
include hR

theorem inOrder {γ : Type} {f g : γ → Act ρ Int} {as : List γ} (h : ∀ a ∈ as, R (f a) (g a))
    (total : Int) : R (inOrder f as total) (inOrder g as total) :=
  inOrder_rel (R := R) hR.pure (fun hxy hfg => hR.bind hxy hfg) h total

theorem times {x y : Act ρ Int} (h : R x y) (n : Nat) (total : Int) :
    R (times x n total) (times y n total) := by
  rw [times_eq_inOrder, times_eq_inOrder]
  exact hR.inOrder (fun _ _ => h) total

theorem repeated {x y : Act ρ Int} (b : Bounds) (h : R x y) :
    R (Act.repeated b x) (Act.repeated b y) :=
  hR.bind (hR.count b) fun n => hR.times h n.toNat 0

/-- Expansions where the second setting has room for `n` levels more. -/
theorem expandWithin_deeper {s s' : Setting} {n : Nat}
    (tooDeep : ∀ t, R (throw (.tooDeep s.budget)) (s'.expandWithin n t))
    (rule : ∀ room name slot, (∀ t, R (s.expandWithin room t) (s'.expandWithin (n + room) t)) →
      R (s.rule name slot >>= s.expandWithin room)
        (s'.rule name slot >>= s'.expandWithin (n + room))) (room : Nat) (t : Tree) :
    R (s.expandWithin room t) (s'.expandWithin (n + room) t) := by
  -- on the room: a reference goes on with its rule, which is no part of the tree
  induction room generalizing t with
  | zero => exact tooDeep t
  | succ room ih =>
    cases t with
    | particle v b => exact hR.repeated b (hR.emit v)
    | reference name b slot => exact hR.repeated b (rule room name slot ih)
    | choice ts b =>
      cases ts with
      | nil => exact hR.emptyChoice
      | cons t ts => exact hR.repeated b (hR.bind (hR.pick t ts) ih)
    | sequence ts b => exact hR.repeated b (hR.inOrder (fun t _ => ih t) 0)
    | stray b => exact hR.notANode

theorem expandWithin (s s' : Setting)
    (tooDeep : @R Int (throw (.tooDeep s.budget)) (throw (.tooDeep s'.budget)))
    (rule : ∀ room name slot, (∀ t, R (s.expandWithin room t) (s'.expandWithin room t)) →
      R (s.rule name slot >>= s.expandWithin room) (s'.rule name slot >>= s'.expandWithin room))
    (room : Nat) (t : Tree) : R (s.expandWithin room t) (s'.expandWithin room t) := by
  have hall := hR.expandWithin_deeper (n := 0) (fun _ => tooDeep)
    (by simpa only [Nat.zero_add] using rule) room t
  rwa [Nat.zero_add] at hall

end Stepwise

theorem stepwise_eq : Stepwise fun {α} (x y : Act ρ α) => y = x where
  pure _ := rfl
  bind hx hf := by
    rw [hx, funext hf]
  emit _ := rfl
  count _ := rfl
  pick _ _ := rfl
  emptyChoice := rfl
  notANode := rfl

end Coinage
