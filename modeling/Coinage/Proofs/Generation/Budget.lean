import Coinage.Chance.Twister
import Coinage.Proofs.Generation.Frame
import Mathlib

/-!
# What the budget decides

The budget of levels only cuts runs short. As long as it does not, a run is the same under every
greater budget, and where it does, what has been written is the beginning of what a greater budget
lets the run write. The failure apart, which names the budget, only the levels that are left matter.
-/

namespace Coinage

variable {ρ α β : Type}

/-- The run that an action leaves behind, whether it succeeds or fails. -/
def Act.after (act : Act ρ α) (r : Run ρ) : Run ρ :=
  match act r with
  | .ok _ r' => r'
  | .error _ r' => r'

theorem Act.after_bind_ok {act : Act ρ α} {f : α → Act ρ β} {r r' : Run ρ} {a : α}
    (h : act r = .ok a r') : (act >>= f).after r = (f a).after r' := by
  simp only [after, Bind.bind, EStateM.bind, h]

theorem Act.after_bind_error {act : Act ρ α} {f : α → Act ρ β} {r r' : Run ρ} {e : Failure}
    (h : act r = .error e r') : (act >>= f).after r = r' := by
  simp only [after, Bind.bind, EStateM.bind, h]

/-- Whether it succeeds or fails, the action takes nothing back of what has been written. -/
def Appends (act : Act ρ α) : Prop :=
  ∀ r, r.text.toList <+: (act.after r).text.toList

/-- What is written behind a text leaves the text as it was. -/
theorem Framed.appends {act : Act ρ α} (h : Framed act) : Appends act := by
  intro r
  have hafter : (act.after r).text = r.text ++ (act.after (.start r.draws)).text := by
    simp only [Act.after, h.eq_resultBehind r]
    cases act (.start r.draws) <;> rfl
  rw [hafter, Array.toList_append]
  exact List.prefix_append _ _

namespace Appends

theorem of_ok {act : Act ρ α} {r r' : Run ρ} {a : α} (h : Appends act) (hr : act r = .ok a r') :
    r.text.toList <+: r'.text.toList := by
  have hact := h r
  rwa [Act.after, hr] at hact

theorem of_error {act : Act ρ α} {r r' : Run ρ} {e : Failure} (h : Appends act)
    (hr : act r = .error e r') : r.text.toList <+: r'.text.toList := by
  have hact := h r
  rwa [Act.after, hr] at hact

theorem bind {act : Act ρ α} {f : α → Act ρ β} (h : Appends act) (hf : ∀ a, Appends (f a)) :
    Appends (act >>= f) := by
  intro r
  cases hr : act r with
  | ok a r' =>
    rw [Act.after_bind_ok hr]
    exact (h.of_ok hr).trans (hf a r')
  | error e r' =>
    rw [Act.after_bind_error hr]
    exact h.of_error hr

end Appends

/-- The second action takes nothing back of what has been written, and wherever the first one is not
cut off for its depth, the second one does the same. Where the first one is cut off, what is written
then is the beginning of what the second one writes. -/
structure Outlasts (act act' : Act ρ α) : Prop where
  appends : Appends act'
  cut_or_same (r : Run ρ) : (∃ budget r', act r = .error (.tooDeep budget) r' ∧
    r'.text.toList <+: (act'.after r).text.toList) ∨ act' r = act r

namespace Outlasts

variable {act act' : Act ρ α}

theorem refl (h : Framed act) : Outlasts act act := ⟨h.appends, fun _ => .inr rfl⟩

theorem of_tooDeep (budget : Int) (h : Framed act) :
    Outlasts (throw (.tooDeep budget) : Act ρ α) act :=
  ⟨h.appends, fun r => .inl ⟨budget, r, rfl, h.appends r⟩⟩

theorem bind {f f' : α → Act ρ β} (h : Outlasts act act') (hf : ∀ a, Outlasts (f a) (f' a)) :
    Outlasts (act >>= f) (act' >>= f') := by
  have happends : Appends (act' >>= f') := h.appends.bind fun a => (hf a).appends
  refine ⟨happends, fun r => ?_⟩
  obtain ⟨budget, r', hcut, hle⟩ | hsame := h.cut_or_same r
  · refine .inl ⟨budget, r', by simp only [Bind.bind, EStateM.bind, hcut], hle.trans ?_⟩
    -- what the second action does behind this point is only appended
    cases hr : act' r with
    | ok a r₁ =>
      rw [Act.after_bind_ok hr, Act.after, hr]
      exact (hf a).appends r₁
    | error e r₁ => rw [Act.after_bind_error hr, Act.after, hr]
  · cases hr : act r with
    | ok a r₁ =>
      rw [hr] at hsame
      have hbind : (act >>= f) r = f a r₁ := by simp only [Bind.bind, EStateM.bind, hr]
      have hbind' : (act' >>= f') r = f' a r₁ := by simp only [Bind.bind, EStateM.bind, hsame]
      rw [hbind, hbind', Act.after_bind_ok hsame]
      exact (hf a).cut_or_same r₁
    | error e r₁ =>
      rw [hr] at hsame
      exact .inr (by simp only [Bind.bind, EStateM.bind, hr, hsame])

theorem stepwise [Draws ρ] : Stepwise fun {α} (act act' : Act ρ α) => Outlasts act act' where
  pure a := refl (.pure a)
  bind := bind
  emit v := refl (.emit v)
  count b := refl (.count b)
  pick t ts := refl (.pick t ts)
  emptyChoice := refl (.throw _)
  notANode := refl (.throw _)

end Outlasts

/-- The failure with another budget in place of the one that it names. -/
def Failure.naming (budget : Int) : Failure → Failure
  | .tooDeep _ => .tooDeep budget
  | e => e

/-- The action, with another budget in place of the one that its failures name. -/
def Act.naming (budget : Int) (act : Act ρ α) : Act ρ α := fun r =>
  match act r with
  | .ok a r' => .ok a r'
  | .error e r' => .error (e.naming budget) r'

namespace Act

variable (budget : Int)

@[simp] theorem naming_bind (act : Act ρ α) (f : α → Act ρ β) :
    (act >>= f).naming budget = act.naming budget >>= fun a => (f a).naming budget := by
  funext r
  simp only [naming, Bind.bind, EStateM.bind]
  cases act r <;> rfl

@[simp]
theorem naming_count [Draws ρ] (b : Bounds) : (count b : Act ρ Int).naming budget = count b := by
  funext r
  simp only [naming, count]
  obtain ⟨n, d⟩ := b.count r.draws
  cases n <;> rfl

@[simp] theorem naming_pick [Draws ρ] (t : Tree) (ts : List Tree) :
    (pick t ts : Act ρ Tree).naming budget = pick t ts := by
  funext r
  simp only [naming, pick]
  cases (t :: ts)[(Draws.below (ts.length + 1) r.draws).1]? <;> rfl

@[simp] theorem naming_rule (s : Setting) (name : Name) (slot : Option Int) :
    (s.rule name slot : Act ρ Tree).naming budget = s.rule name slot := by
  rcases s.rule_cases name slot with ⟨t, h⟩ | h | h <;> rw [h] <;> rfl

/-- Every step but that of being cut off names no budget. -/
theorem naming_stepwise [Draws ρ] :
    Stepwise fun {α} (act act' : Act ρ α) => act' = act.naming budget where
  pure _ := rfl
  bind hx hf := by
    rw [naming_bind, hx, funext hf]
  emit _ := rfl
  count b := (naming_count budget b).symm
  pick t ts := (naming_pick budget t ts).symm
  emptyChoice := rfl
  notANode := rfl

end Act

namespace Setting

def withBudget (s : Setting) (budget : Int) : Setting := { s with budget := budget }

theorem room_withBudget_le (s : Setting) {M M' : Int} (h : M ≤ M') (level : Int) :
    (s.withBudget M).room level ≤ (s.withBudget M').room level := by
  obtain ⟨seed, book, budget, ceiling⟩ := s
  cases ceiling <;> simp only [withBudget, room] <;> omega

/-- Only the difference between the budget and the level matters. -/
@[simp] theorem room_withBudget_add (s : Setting) (M level j : Int) :
    (s.withBudget (M + j)).room (level + j) = (s.withBudget M).room level := by
  have hdiff : M + j - (level + j) + 1 = M - level + 1 := by omega
  simp only [room, withBudget, hdiff]

variable [Draws ρ] (s : Setting)

/-- A run in more room and with another budget goes on where a run in less room is cut off. -/
theorem expandWithin_outlasts (M : Int) {room room' : Nat} (hle : room ≤ room') (t : Tree) :
    Outlasts (s.expandWithin room t : Act ρ Int) ((s.withBudget M).expandWithin room' t) := by
  obtain ⟨n, rfl⟩ := Nat.exists_eq_add_of_le' hle
  have hcut (u : Tree) : Outlasts (throw (.tooDeep s.budget) : Act ρ Int)
      ((s.withBudget M).expandWithin n u) :=
    .of_tooDeep _ ((s.withBudget M).expandWithin_framed n u)
  exact Outlasts.stepwise.expandWithin_deeper hcut
    (fun _ name slot h => (Outlasts.refl (.rule s name slot)).bind h) room t

theorem expandWithin_appends (room : Nat) (t : Tree) :
    Appends (s.expandWithin room t : Act ρ Int) :=
  (s.expandWithin_framed room t).appends

/-- In the same room another budget shows in the failure alone. -/
@[simp] theorem expandWithin_withBudget (M : Int) (room : Nat) (t : Tree) :
    ((s.withBudget M).expandWithin room t : Act ρ Int) = (s.expandWithin room t).naming M := by
  have hsteps := Act.naming_stepwise (ρ := ρ) M
  refine hsteps.expandWithin s (s.withBudget M) rfl (fun n name slot h => ?_) room t
  rw [Act.naming_bind, Act.naming_rule, funext h]
  rfl

/-- The budget only cuts runs short. Whatever the rulebook, the tree, the level and the run are, a
run that is not cut off goes the same way under a greater budget, with the same text and draws; a
run that is cut off has written the beginning of what it writes under a greater budget; and if the
budget and the level are raised alike, nothing changes but the budget that the failure names. -/
theorem budget_only_cuts_short (t : Tree) (level : Int) {M M' : Int} (hle : M ≤ M') (r : Run ρ) :
    ((∀ budget r', (s.withBudget M).expand t level r ≠ .error (.tooDeep budget) r') →
      (s.withBudget M').expand t level r = (s.withBudget M).expand t level r) ∧
    (∀ budget r', (s.withBudget M).expand t level r = .error (.tooDeep budget) r' →
      ∃ w w', r'.text.toList = r.text.toList ++ w ∧
        (((s.withBudget M').expand t level).after r).text.toList = r.text.toList ++ w' ∧
        w <+: w') ∧
    ∀ j, (s.withBudget (M + j)).expand t (level + j) r =
      ((s.withBudget M).expand t level).naming (M + j) r := by
  have houtlasts : Outlasts ((s.withBudget M).expand t level : Act ρ Int)
      ((s.withBudget M').expand t level) :=
    (s.withBudget M).expandWithin_outlasts M' (s.room_withBudget_le hle level) t
  refine ⟨fun hnot => ?_, fun budget r' hcut => ?_, fun j => ?_⟩
  · obtain ⟨budget, r', hcut, -⟩ | hsame := houtlasts.cut_or_same r
    · exact absurd hcut (hnot budget r')
    · exact hsame
  · have happends : Appends ((s.withBudget M).expand t level : Act ρ Int) :=
      (s.withBudget M).expandWithin_appends _ t
    obtain ⟨budget', r₁, hcut', hle'⟩ | hsame := houtlasts.cut_or_same r
    · cases hcut.symm.trans hcut'
      obtain ⟨w, hw⟩ := happends.of_error hcut
      obtain ⟨v, hv⟩ := hle'
      refine ⟨w, w ++ v, hw.symm, ?_, List.prefix_append w v⟩
      rw [← hv, ← hw, List.append_assoc]
    · obtain ⟨w, hw⟩ := happends.of_error hcut
      refine ⟨w, w, hw.symm, ?_, List.prefix_refl w⟩
      rw [Act.after, hsame, hcut, hw]
  · simp only [expand, room_withBudget_add]
    exact congrFun ((s.withBudget M).expandWithin_withBudget (M + j) _ t) r

/-- A run that is cut off in front of a rule, and its whole word under a greater budget. -/
theorem budget_only_cuts_short_rule :
    let s : Setting := ⟨7, ⟨[['v']], [.sequence [.particle ['e'] ⟨2, 2⟩] .once]⟩, 1, none⟩
    let r : Run Twister := ⟨.ofSeed 7, #['x']⟩
    let t : Tree := .sequence [.particle ['a'] .once, .reference ['v'] .once (some 0)] .once
    (1 : Int) ≤ 3 ∧
      (s.withBudget 1).expand t 0 r = .error (.tooDeep 1) { r with text := #['x', 'a'] } ∧
      (s.withBudget 3).expand t 0 r = .ok 3 { r with text := #['x', 'a', 'e', 'e'] } ∧
      (s.withBudget 9).expand t 0 r = (s.withBudget 3).expand t 0 r ∧
      (s.withBudget 6).expand t 5 r = .error (.tooDeep 6) { r with text := #['x', 'a'] } := by
  intro s r t
  have hcut : (s.withBudget 1).expand t 0 r =
      .error (.tooDeep 1) { r with text := #['x', 'a'] } := rfl
  have hfull : (s.withBudget 3).expand t 0 r =
      .ok 3 { r with text := #['x', 'a', 'e', 'e'] } := rfl
  obtain ⟨-, -, hshift⟩ := s.budget_only_cuts_short (ρ := Twister) t 0 (show (1 : Int) ≤ 3 by decide) r
  obtain ⟨hsame, -⟩ := s.budget_only_cuts_short (ρ := Twister) t 0 (show (3 : Int) ≤ 9 by decide) r
  refine ⟨by decide, hcut, hfull, hsame fun budget r' he => ?_, ?_⟩
  · cases hfull.symm.trans he
  · have hfive := hshift 5
    rw [Act.naming, hcut] at hfive
    exact hfive

end Setting

end Coinage
