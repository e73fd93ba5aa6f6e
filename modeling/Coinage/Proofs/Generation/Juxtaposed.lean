import Coinage.Chance.Twister
import Coinage.Proofs.Generation.Budget
import Coinage.Proofs.Pattern.Juxtaposition
import Mathlib

/-!
# Words of patterns side by side

Making a word from two patterns with a space between them is making one word after the other, with
the same draws, failures and text behind them.
-/

namespace Coinage

variable {ρ : Type}

/-- Makes one word and then another one behind it, and puts them together. Where the second one
fails, the first one is part of what was written. -/
def inSuccession (first second : EStateM Abort (Run ρ) (List Char)) :
    EStateM Abort (Run ρ) (List Char) := fun r =>
  match first r with
  | .error a r => .error a r
  | .ok v r =>
    match second r with
    | .ok w r => .ok (v ++ w) r
    | .error a r => .error ⟨a.failure, v ++ a.written⟩ r

/-- What is written after a time is what is written up to a second time and then after that one. -/
theorem Run.since_trans {r r₁ r₂ : Run ρ} (h₁ : r.text.toList <+: r₁.text.toList)
    (h₂ : r₁.text.toList <+: r₂.text.toList) :
    r₂.since r.text.size = r₁.since r.text.size ++ r₂.since r₁.text.size := by
  obtain ⟨v, hv⟩ := h₁
  obtain ⟨w, hw⟩ := h₂
  have htext : r₂.text.toList = r.text.toList ++ (v ++ w) := by
    rw [← hw, ← hv, List.append_assoc]
  rw [since_append htext, since_append hv.symm, since_append hw.symm]

namespace Setting

variable [Draws ρ] (s : Setting)

/-- A sequence that is run once is its first part and then its second part. -/
theorem expandWithin_sequence_append (room : Nat) (ts us : List Tree) :
    (s.expandWithin room (.sequence (ts ++ us) ⟨1, 1⟩) : Act ρ Int) =
      s.expandWithin room (.sequence ts ⟨1, 1⟩) >>= fun k =>
        s.expandWithin room (.sequence us ⟨1, 1⟩) >>= fun m => pure (k + m) := by
  cases room with
  | zero => rfl
  | succ room =>
    simp only [expandWithin_sequence, Act.repeated_once]
    rw [inOrder_append]
    exact bind_congr fun k => inOrder_total _ us k

theorem word_sequence_append (ts us : List Tree) :
    (s.word (.sequence (ts ++ us) ⟨1, 1⟩) : EStateM Abort (Run ρ) (List Char)) =
      inSuccession (s.word (.sequence ts ⟨1, 1⟩)) (s.word (.sequence us ⟨1, 1⟩)) := by
  funext r
  have happends (t : Tree) : Appends (s.expand t 0 : Act ρ Int) := s.expandWithin_appends _ t
  have hexpand := congrFun (s.expandWithin_sequence_append (ρ := ρ) (s.room 0) ts us) r
  simp only [Bind.bind, EStateM.bind] at hexpand
  simp only [inSuccession, word, expand, hexpand]
  cases h₁ : s.expandWithin (s.room 0) (.sequence ts ⟨1, 1⟩) r with
  | error e r₁ => rfl
  | ok k r₁ =>
    have hle₁ : r.text.toList <+: r₁.text.toList := (happends _).of_ok h₁
    cases h₂ : s.expandWithin (s.room 0) (.sequence us ⟨1, 1⟩) r₁ with
    | error e r₂ =>
      have hle₂ : r₁.text.toList <+: r₂.text.toList := (happends _).of_error h₂
      simp only [h₂, Run.since_trans hle₁ hle₂]
    | ok m r₂ =>
      have hle₂ : r₁.text.toList <+: r₂.text.toList := (happends _).of_ok h₂
      simp only [h₂, Pure.pure, EStateM.pure, Run.since_trans hle₁ hle₂]

/-- Juxtaposition of patterns is succession of words. Two patterns with a space between them are a
pattern, and in every setting making a word from it is making a word from the first and, behind it,
one from the second: the words are put together, the first failure is the failure, and the text and
the draws that are left behind are the same. -/
theorem juxtaposition_is_succession {u v : List Char} {p q : Pattern}
    (hp : Pattern.compile u = .ok p) (hq : Pattern.compile v = .ok q) :
    ∃ both, Pattern.compile (u ++ ' ' :: v) = .ok both ∧
      (s.generate both.root : EStateM Abort (Run ρ) (List Char)) =
        inSuccession (s.generate p.root) (s.generate q.root) := by
  obtain ⟨ts, us, hroot, hroot', hboth⟩ :=
    compile_append Grammar.gap_space (List.cons_ne_nil _ _) hp hq
  refine ⟨_, hboth, ?_⟩
  rw [generate_eq_word (Pattern.shaped_root hp), generate_eq_word (Pattern.shaped_root hq),
    generate_eq_word (Pattern.shaped_root hboth), hroot, hroot']
  simp [word_sequence_append]

/-- A name that would go on with the next pattern but for the space, in front of a pattern that
fails behind its first word. -/
theorem juxtaposition_is_succession_unknown :
    let s : Setting := ⟨7, ⟨[['v']], [.sequence [.particle ['e'] ⟨2, 2⟩] .once]⟩, 5, none⟩
    let r : Run Twister := ⟨.ofSeed 7, #['x']⟩
    let p : Pattern := ⟨"$v".toList, .sequence [.reference ['v'] .once none] .once⟩
    let q : Pattern := ⟨"a$w".toList,
      .sequence [.particle ['a'] .once, .reference ['w'] .once none] .once⟩
    Pattern.compile "$v".toList = .ok p ∧ Pattern.compile "a$w".toList = .ok q ∧
      ∃ both, Pattern.compile "$v a$w".toList = .ok both ∧
        s.generate both.root r = .error ⟨.unknown ['w'], ['e', 'e', 'a']⟩
          { r with text := #['x', 'e', 'e', 'a'] } := by
  intro s r p q
  have hp : Pattern.compile "$v".toList = .ok p := by cbv
  have hq : Pattern.compile "a$w".toList = .ok q := by cbv
  have hrun : inSuccession (s.generate p.root) (s.generate q.root) r =
      .error ⟨.unknown ['w'], ['e', 'e', 'a']⟩ { r with text := #['x', 'e', 'e', 'a'] } := rfl
  obtain ⟨both, hboth, hsame⟩ := s.juxtaposition_is_succession (ρ := Twister) hp hq
  exact ⟨hp, hq, both, hboth, (congrFun hsame r).trans hrun⟩

end Setting

end Coinage
