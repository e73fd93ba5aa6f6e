import Coinage.Proofs.Chance.Count

/-!
# Draws written down beforehand

A script gives out the numbers that are written in it, one for each draw, and only numbers that the
draw may give. So every course that the draws may take is that of a script.
-/

namespace Coinage

structure Script where
  draws : List Nat

namespace Script

/-- The next number of the script, brought below `n`; zero behind the end of the script. -/
def next (n : Nat) (s : Script) : Nat × Script :=
  match s.draws with
  | [] => (0, s)
  | i :: is => (i % n, ⟨is⟩)

instance : Draws Script := ⟨next (twoTo 53), next⟩

theorem next_lt {n : Nat} (hn : 0 < n) (s : Script) : (s.next n).1 < n := by
  simp only [next]
  split
  · exact hn
  · exact Nat.mod_lt _ hn

instance : LawfulDraws Script := ⟨next_lt (twoTo_pos 53), fun _ s hn => next_lt hn s⟩

/-- A number that the draw may give is given out as it is written. -/
theorem next_cons {i n : Nat} (hi : i < n) (is : List Nat) : next n ⟨i :: is⟩ = (i, ⟨is⟩) := by
  simp only [next, Nat.mod_eq_of_lt hi]

end Script

/-- Every number between bounds that are not too far apart is drawn from some script. -/
theorem Bounds.exists_count {b : Bounds} (hwidth : b.hi - b.lo ≤ twoTo 50) {k : Int}
    (hlo : b.lo ≤ k) (hhi : k ≤ b.hi) :
    ∃ is : List Nat, ∀ rest, b.count (ρ := Script) ⟨is ++ rest⟩ = (some k, ⟨rest⟩) := by
  by_cases heq : b.lo = b.hi
  · have hk : b.lo = k := Int.le_antisymm hlo (heq ▸ hhi)
    exact ⟨[], fun rest => by rw [count, if_pos heq, hk, List.nil_append]⟩
  · obtain ⟨i, hi, hshare⟩ := exists_share hwidth hlo hhi
    refine ⟨[i], fun rest => ?_⟩
    have hdraw : Draws.fraction (⟨i :: rest⟩ : Script) = (i, ⟨rest⟩) := Script.next_cons hi rest
    simp only [count, if_neg heq, List.singleton_append, hdraw, hshare]

end Coinage
