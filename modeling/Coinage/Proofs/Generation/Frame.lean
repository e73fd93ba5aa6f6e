import Coinage.Proofs.Generation.Stepwise

/-!
# What has been written before

Expansions write behind the text and never look at it. With another text in front they take the same
course, and the text that was there in front stays there.
-/

namespace Coinage

variable {ρ ε α β : Type}

namespace Run

/-- The run with more text in front of its own. -/
def behind (x : Array Char) (r : Run ρ) : Run ρ := { r with text := x ++ r.text }

/-- The result with more text in front of the text that it leaves. -/
def resultBehind (x : Array Char) : EStateM.Result ε (Run ρ) α → EStateM.Result ε (Run ρ) α
  | .ok a r => .ok a (r.behind x)
  | .error e r => .error e (r.behind x)

theorem eq_behind_start (r : Run ρ) : r = (start r.draws).behind r.text := by
  simp [behind, start]

/-- What has been written is written behind any text. -/
@[simp] theorem since_behind (x : Array Char) (n : Nat) (r : Run ρ) :
    (r.behind x).since (x.size + n) = r.since n := by
  simp [since, behind, List.extract_eq_take_drop]

/-- The text in front, and then what has been written. -/
theorem behind_text (x : Array Char) (r : Run ρ) :
    (r.behind x).text = x ++ (r.behind x).since x.size := by
  refine Array.ext' ?_
  simp [since, behind]

end Run

/-- What a result tells: the answer, and the draws that are left. -/
def heard : EStateM.Result ε (Run ρ) α → Except ε α × ρ
  | .ok a r => (.ok a, r.draws)
  | .error e r => (.error e, r.draws)

@[simp] theorem heard_resultBehind (x : Array Char) (res : EStateM.Result ε (Run ρ) α) :
    heard (Run.resultBehind x res) = heard res := by
  cases res <;> rfl

/-- The action works behind any text as it does without it. -/
def Framed (act : EStateM ε (Run ρ) α) : Prop :=
  ∀ x r, act (r.behind x) = Run.resultBehind x (act r)

namespace Framed

theorem pure (a : α) : Framed (pure a : EStateM ε (Run ρ) α) := fun _ _ => rfl

theorem throw (e : ε) : Framed (throw e : EStateM ε (Run ρ) α) := fun _ _ => rfl

theorem emit (v : List Char) : Framed (Act.emit v : Act ρ Int) := by
  intro x r
  have hassoc : x ++ r.text ++ v = x ++ (r.text ++ v) := Array.ext' (by simp)
  simp only [Act.emit, Run.behind, Run.resultBehind, hassoc]

theorem rule (s : Setting) (name : Name) (slot : Option Int) :
    Framed (s.rule name slot : Act ρ Tree) := by
  rcases s.rule_cases name slot with ⟨t, h⟩ | h | h <;> rw [h]
  · exact pure t
  · exact throw _
  · exact throw _

theorem bind {act : EStateM ε (Run ρ) α} {f : α → EStateM ε (Run ρ) β} (h : Framed act)
    (hf : ∀ a, Framed (f a)) : Framed (act >>= f) := by
  intro x r
  simp only [Bind.bind, EStateM.bind, h x r]
  cases act r with
  | ok a r' => exact hf a x r'
  | error e r' => rfl

variable [Draws ρ]

theorem count (b : Bounds) : Framed (Act.count b : Act ρ Int) := by
  intro x r
  simp only [Act.count, Run.behind]
  obtain ⟨n, d⟩ := b.count r.draws
  cases n <;> rfl

theorem pick (t : Tree) (ts : List Tree) : Framed (Act.pick t ts : Act ρ Tree) := by
  intro x r
  simp only [Act.pick, Run.behind]
  cases (t :: ts)[(Draws.below (ts.length + 1) r.draws).1]? <;> rfl

/-- Every step works behind any text, and so does what is put together from them. -/
theorem stepwise : Stepwise fun {α} (act _ : Act ρ α) => Framed act where
  pure := pure
  bind := bind
  emit := emit
  count := count
  pick := pick
  emptyChoice := throw _
  notANode := throw _

end Framed

section

variable {act : EStateM ε (Run ρ) α} {r r' : Run ρ}

/-- A framed action works behind the text as it does behind none. -/
theorem Framed.eq_resultBehind (h : Framed act) (r : Run ρ) :
    act r = Run.resultBehind r.text (act (.start r.draws)) := by
  rw [← h, ← r.eq_behind_start]

/-- What a framed action answers and draws does not depend on the text. -/
theorem Framed.heard_eq (h : Framed act) (hd : r'.draws = r.draws) :
    heard (act r') = heard (act r) := by
  rw [h.eq_resultBehind r', h.eq_resultBehind r, heard_resultBehind, heard_resultBehind, hd]

theorem Framed.text_of_ok {a : α} (h : Framed act) (hr : act r = .ok a r') :
    r'.text = r.text ++ r'.since r.text.size := by
  rw [h.eq_resultBehind] at hr
  cases hstart : act (.start r.draws) with
  | ok b r₁ =>
    rw [hstart] at hr
    cases hr
    exact r₁.behind_text r.text
  | error e r₁ =>
    rw [hstart] at hr
    cases hr

theorem Framed.text_of_error {e : ε} (h : Framed act) (hr : act r = .error e r') :
    r'.text = r.text ++ r'.since r.text.size := by
  rw [h.eq_resultBehind] at hr
  cases hstart : act (.start r.draws) with
  | ok b r₁ =>
    rw [hstart] at hr
    cases hr
  | error e r₁ =>
    rw [hstart] at hr
    cases hr
    exact r₁.behind_text r.text

end

namespace Setting

variable [Draws ρ] (s : Setting)

theorem expandWithin_framed (room : Nat) (t : Tree) :
    Framed (s.expandWithin room t : Act ρ Int) :=
  Framed.stepwise.expandWithin s s (.throw _)
    (fun _ name slot h => (Framed.rule s name slot).bind h) room t

/-- A word is cut out of the text behind what was there before. -/
theorem word_framed (t : Tree) : Framed (s.word t : EStateM Abort (Run ρ) (List Char)) := by
  intro x r
  have hsize : (r.behind x).text.size = x.size + r.text.size := Array.size_append
  have hexpand : s.expand t 0 (r.behind x) = Run.resultBehind x (s.expand t 0 r) :=
    s.expandWithin_framed _ t x r
  simp only [word, hexpand, hsize]
  cases s.expand t 0 r with
  | ok k r' => simp only [Run.resultBehind, Run.since_behind]
  | error e r' => simp only [Run.resultBehind, Run.since_behind]

theorem generate_framed (t : Tree) :
    Framed (s.generate t : EStateM Abort (Run ρ) (List Char)) := by
  intro x r
  simp only [generate]
  cases t.link? s.book.slotOf with
  | none => rfl
  | some u => exact s.word_framed u x r

section

variable {t : Tree} {r r' : Run ρ}

/-- A word is added to the text. -/
theorem generate_text_of_ok {w : List Char} (h : s.generate t r = .ok w r') :
    r'.text = r.text ++ w := by
  simp only [generate] at h
  split at h
  · cases h
  · obtain ⟨⟨k, hexpand⟩, rfl⟩ := word_eq_ok.mp h
    exact (s.expandWithin_framed _ _).text_of_ok hexpand

/-- What is written of a word that fails is added to the text. -/
theorem generate_text_of_error {a : Abort} (h : s.generate t r = .error a r') :
    r'.text = r.text ++ a.written := by
  simp only [generate] at h
  split at h
  · cases h
    exact Array.append_empty.symm
  · obtain ⟨hexpand, hwritten⟩ := word_eq_error.mp h
    rw [hwritten]
    exact (s.expandWithin_framed _ _).text_of_error hexpand

end

end Setting

end Coinage
