import Coinage.Proofs.Chance.Script
import Coinage.Proofs.Generation.Acts
import Mathlib

/-!
# Batches are streams

A batch links its tree once and starts every word over an empty text. That is as good as starting
over and making single words, one after the other, and the draws go on from batch to batch as they
go on from word to word.
-/

namespace Coinage

variable {ρ ε α : Type}

/-- Starts over and does the action, `n` times; the first failure ends the rounds. -/
def rounds (act : EStateM ε (Run ρ) α) : Nat → EStateM ε (Run ρ) (List α)
  | 0 => pure []
  | n + 1 => do
    modify Run.reset
    let a ← act
    return a :: (← rounds act n)

theorem rounds_add (act : EStateM ε (Run ρ) α) (m n : Nat) :
    rounds act (m + n) = do return (← rounds act m) ++ (← rounds act n) := by
  induction m with
  | zero => simp [rounds]
  | succ m ih =>
    rw [Nat.succ_add]
    simp [rounds, ih]

theorem rounds_succ_apply (act : EStateM ε (Run ρ) α) (n : Nat) (r : Run ρ) :
    rounds act (n + 1) r = (do return (← act) :: (← rounds act n)) r.reset := rfl

section

variable {act : EStateM ε (Run ρ) α} {n : Nat} {r r' : Run ρ}

/-- There are as many answers as rounds; no round leaves the run as it was, and what the last one
leaves is what the action leaves of an empty text. -/
theorem rounds_eq_ok {as : List α} (h : rounds act n r = .ok as r') :
    as.length = n ∧ (n = 0 → r' = r) ∧
      ∀ a ∈ as.getLast?, ∃ r₁ : Run ρ, act r₁.reset = .ok a r' := by
  induction n generalizing r as with
  | zero =>
    cases h
    exact ⟨rfl, fun _ => rfl, by simp⟩
  | succ n ih =>
    rw [rounds_succ_apply] at h
    obtain ⟨a, r₁, hact, hrest⟩ := stateM_bind_eq_ok.mp h
    obtain ⟨bs, r₂, hbs, hcons⟩ := stateM_bind_eq_ok.mp hrest
    cases hcons
    obtain ⟨hlength, hnone, hlast⟩ := ih hbs
    refine ⟨by rw [List.length_cons, hlength], nofun, fun b hb => ?_⟩
    cases bs with
    | nil =>
      cases hb
      rw [hnone hlength.symm]
      exact ⟨r, hact⟩
    | cons b' bs => exact hlast b (by rwa [List.getLast?_cons_cons] at hb)

/-- What the failing round leaves is what the action leaves of an empty text. -/
theorem rounds_eq_error {e : ε} (h : rounds act n r = .error e r') :
    ∃ r₁ : Run ρ, act r₁.reset = .error e r' := by
  induction n generalizing r with
  | zero => cases h
  | succ n ih =>
    rw [rounds_succ_apply] at h
    obtain hact | ⟨a, r₁, -, hrest⟩ := stateM_bind_eq_error.mp h
    · exact ⟨r, hact⟩
    · obtain hbs | ⟨bs, r₂, hbs, hcons⟩ := stateM_bind_eq_error.mp hrest
      · exact ih hbs
      · cases hcons

end

namespace Setting

variable [Draws ρ] (s : Setting) {t : Tree}

theorem words_succ (t : Tree) (n : Nat) (made : Array (List Char)) :
    (s.words t (n + 1) made : EStateM Abort (Run ρ) (List (List Char))) =
      (do modify Run.reset; s.words t n (made.push (← s.word t))) := by
  funext r
  change _ = (s.word t >>= fun w => s.words t n (made.push w)) r.reset
  simp only [words, Bind.bind, EStateM.bind]
  cases s.word t r.reset <;> rfl

/-- Words are made in rounds, behind those that have been made. -/
theorem words_eq_rounds (t : Tree) (n : Nat) (made : Array (List Char)) :
    (s.words t n made : EStateM Abort (Run ρ) (List (List Char))) =
      (made.toList ++ ·) <$> rounds (s.word t) n := by
  induction n generalizing made with
  | zero =>
    rw [rounds, map_pure, List.append_nil]
    rfl
  | succ n ih => simp [words_succ, rounds, ih]

/-- The words of a batch are made in rounds, each of which links the tree. -/
theorem generateBatch_eq_rounds (ht : t.isProper = true) (count : Int) :
    (s.generateBatch t count : EStateM Abort (Run ρ) (List (List Char))) =
      rounds (s.generate t) count.toNat := by
  have hlink : t.link? s.book.slotOf = some (t.link s.book.slotOf) := if_pos ht
  have hgenerate : (s.generate t : EStateM Abort (Run ρ) (List Char)) =
      s.word (t.link s.book.slotOf) := by
    funext r
    simp only [generate, hlink]
  funext r
  simp [generateBatch, hlink, words_eq_rounds, hgenerate]

theorem generateBatch_add (ht : t.isProper = true) (m n : Nat) :
    (s.generateBatch t (m + n) : EStateM Abort (Run ρ) (List (List Char))) =
      do return (← s.generateBatch t m) ++ (← s.generateBatch t n) := by
  simp only [generateBatch_eq_rounds s ht, ← Int.natCast_add, Int.toNat_natCast, rounds_add]

/-- A batch is one continuous stream. From any text and any draws, a batch of `n` words from a tree
of nodes, as every compiled pattern is one, is the same as `n` times starting over and making a
word, down to the failure, the text and the draws that are left; and a batch of `m + n` words is a
batch of `m` and then one of `n`. So a smaller batch makes the first words of a larger one, and
where the smaller one fails, the larger one fails in the same way. -/
theorem batch_is_one_stream (ht : t.isProper = true) (m n : Nat) :
    (s.generateBatch t n : EStateM Abort (Run ρ) (List (List Char))) = rounds (s.generate t) n ∧
      (s.generateBatch t (m + n) : EStateM Abort (Run ρ) (List (List Char))) =
        (do return (← s.generateBatch t m) ++ (← s.generateBatch t n)) ∧
      ∀ r : Run ρ,
        (∀ vs ws r₁ r₂, s.generateBatch t m r = .ok vs r₁ →
          s.generateBatch t (m + n) r = .ok ws r₂ → vs <+: ws) ∧
        ∀ a r', s.generateBatch t m r = .error a r' →
          s.generateBatch t (m + n) r = .error a r' := by
  have hadd := s.generateBatch_add (ρ := ρ) ht m n
  refine ⟨s.generateBatch_eq_rounds ht n, hadd, fun r => ⟨?_, ?_⟩⟩
  · intro vs ws r₁ r₂ hm hmn
    rw [hadd, stateM_bind_eq_ok] at hmn
    obtain ⟨vs', r', hvs, hrest⟩ := hmn
    obtain rfl : vs = vs' := by
      rw [hm] at hvs
      cases hvs
      rfl
    obtain ⟨us, r'', -, hws⟩ := stateM_bind_eq_ok.mp hrest
    cases hws
    exact List.prefix_append vs us
  · intro a r' hm
    rw [hadd, stateM_bind_eq_error]
    exact .inl hm

/-- The first word succeeds behind a text, and the second one fails within: so does every larger
batch. -/
theorem batch_is_one_stream_stopped :
    let s : Setting := ⟨7, ⟨[], []⟩, 200, none⟩
    let t : Tree := .sequence [.particle ['b'] .once,
      .choice [.particle ['a'] .once, .reference ['w'] .once none] .once] .once
    let r : Run Script := ⟨⟨[0, 1]⟩, #['x']⟩
    t.isProper = true ∧
      s.generateBatch t 1 r = .ok [['b', 'a']] ⟨⟨[1]⟩, #['b', 'a']⟩ ∧
      s.generateBatch t 1 r = rounds (s.generate t) 1 r ∧
      s.generateBatch t 2 r = .error ⟨.unknown ['w'], ['b']⟩ ⟨⟨[]⟩, #['b']⟩ ∧
      s.generateBatch t (2 + 1) r = .error ⟨.unknown ['w'], ['b']⟩ ⟨⟨[]⟩, #['b']⟩ := by
  intro s t r
  have ht : t.isProper = true := rfl
  have hone : s.generateBatch t 1 r = .ok [['b', 'a']] ⟨⟨[1]⟩, #['b', 'a']⟩ := rfl
  have htwo : s.generateBatch t 2 r = .error ⟨.unknown ['w'], ['b']⟩ ⟨⟨[]⟩, #['b']⟩ := rfl
  obtain ⟨hrounds, -, -⟩ := batch_is_one_stream (ρ := Script) s ht 0 1
  obtain ⟨-, -, hlarger⟩ := batch_is_one_stream (ρ := Script) s ht 2 1
  exact ⟨ht, hone, congrFun hrounds r, htwo, (hlarger r).2 _ _ htwo⟩

end Setting

end Coinage
