import Coinage.Proofs.Generation.Budget
import Mathlib

/-!
# Runs in step

Two expansions that differ in nothing but the levels they take up go through the same draws, texts
and failures, until the first one is cut off for its depth. Every step of an expansion keeps two
actions in step that are made from actions in step.
-/

namespace Coinage

variable {ρ α β : Type}

/-- Lists with partners at the same places. -/
theorem rel_getElem? {R : α → β → Prop} {as : List α} {bs : List β} (h : List.Forall₂ R as bs)
    (i : Nat) : Option.Rel R as[i]? bs[i]? := by
  induction h generalizing i with
  | nil => exact .none
  | cons hab _ ih =>
    cases i with
    | zero => exact .some hab
    | succ i => exact ih i

/-- Wherever the first action is not cut off for its depth, the second one does the same: it gives
the same result or failure and leaves the same run behind. -/
def Follows (act act' : Act ρ α) : Prop :=
  ∀ r, (∃ budget r', act r = .error (.tooDeep budget) r') ∨ act' r = act r

theorem Outlasts.follows {act act' : Act ρ α} (h : Outlasts act act') : Follows act act' :=
  fun r => (h.cut_or_same r).imp_left fun ⟨budget, r', hcut, _⟩ => ⟨budget, r', hcut⟩

namespace Follows

theorem refl (act : Act ρ α) : Follows act act := fun _ => .inr rfl

theorem of_tooDeep (budget : Int) (act : Act ρ α) : Follows (throw (.tooDeep budget)) act :=
  fun r => .inl ⟨budget, r, rfl⟩

theorem trans {act act' act'' : Act ρ α} (h : Follows act act') (h' : Follows act' act'') :
    Follows act act'' := by
  intro r
  obtain hcut | hsame := h r
  · exact .inl hcut
  · rw [← hsame]
    exact h' r

theorem bind {x y : Act ρ α} {f g : α → Act ρ β} (h : Follows x y)
    (hfg : ∀ v, Follows (f v) (g v)) : Follows (x >>= f) (y >>= g) := by
  intro r
  simp only [Bind.bind, EStateM.bind]
  obtain ⟨budget, r', hcut⟩ | hsame := h r
  · exact .inl ⟨budget, r', by rw [hcut]⟩
  · rw [hsame]
    cases x r with
    | ok v r₁ => exact hfg v r₁
    | error e r₁ => exact .inr rfl

variable [Draws ρ]

theorem stepwise : Stepwise fun {α} (act act' : Act ρ α) => Follows act act' where
  pure a := refl (pure a)
  bind := bind
  emit v := refl (Act.emit v)
  count b := refl (Act.count b)
  pick t ts := refl (Act.pick t ts)
  emptyChoice := refl (throw _)
  notANode := refl (throw _)

theorem repeated {act act' : Act ρ Int} (b : Bounds) (h : Follows act act') :
    Follows (Act.repeated b act) (Act.repeated b act') :=
  stepwise.repeated b h

/-- The same draw chooses from lists of the same length. -/
theorem pick {f g : Tree → Act ρ Int} {t u : Tree} {ts us : List Tree}
    (h : List.Forall₂ (fun v w => Follows (f v) (g w)) (t :: ts) (u :: us)) :
    Follows (Act.pick t ts >>= f) (Act.pick u us >>= g) := by
  intro r
  have hlength : us.length = ts.length := (Nat.succ.inj h.length_eq).symm
  have hchosen := rel_getElem? h (Draws.below (ts.length + 1) r.draws).1
  simp only [Bind.bind, EStateM.bind, Act.pick, hlength]
  generalize (t :: ts)[(Draws.below (ts.length + 1) r.draws).1]? = v,
    (u :: us)[(Draws.below (ts.length + 1) r.draws).1]? = w at hchosen
  cases hchosen with
  | none => exact .inr rfl
  | some hvw => exact hvw _

end Follows

/-- Runs in step are the same unless the first one is cut off, for expansions at any level and for
words. -/
theorem Setting.same_of_follows [Draws ρ] {s s' : Setting} {t t' : Tree}
    (h : ∀ level, Follows (s.expand t level : Act ρ Int) (s'.expand t' level)) (r : Run ρ) :
    (∀ level, (∀ budget r', s.expand t level r ≠ .error (.tooDeep budget) r') →
      s'.expand t' level r = s.expand t level r) ∧
    ((∀ budget written r', s.word t r ≠ .error ⟨.tooDeep budget, written⟩ r') →
      s'.word t' r = s.word t r) := by
  constructor
  · intro level hdeep
    obtain ⟨budget, r', hcut⟩ | hsame := h level r
    · exact absurd hcut (hdeep budget r')
    · exact hsame
  · intro hdeep
    obtain ⟨budget, r', hcut⟩ | hsame := h 0 r
    · refine absurd ?_ (hdeep budget (r'.since r.text.size) r')
      simp only [word, hcut]
    · simp only [word, hsame]

end Coinage
