import Mathlib.Data.List.Chain
import Mathlib.Logic.Relation

/-!
# Cycles and ranks

A relation that has a rank, falling at every step, has no cycle. A list in which every element
stands before all its successors gives such a rank.
-/

namespace Coinage

open Relation

variable {α : Type}

/-- A closed walk along the relation that passes no element twice, with its first element repeated
at the end. -/
structure IsCycle (R : α → α → Prop) (c : List α) : Prop where
  two_le_length : 2 ≤ c.length
  closed : c.head? = c.getLast?
  nodup : c.dropLast.Nodup
  chain : c.IsChain R

theorem transGen_of_isChain {R : α → α → Prop} {a z : α} {l : List α} (h : (a :: l).IsChain R)
    (hz : l.getLast? = some z) : TransGen R a z := by
  induction l generalizing a with
  | nil => cases hz
  | cons b l ih =>
    rw [List.isChain_cons_cons] at h
    cases l with
    | nil =>
      cases hz
      exact .single h.1
    | cons c l => exact .head h.1 (ih h.2 (by simpa using hz))

/-- Elements each of which leads to the one in front of it all lead to the first. -/
theorem reflTransGen_head {R : α → α → Prop} {n : α} {ns : List α}
    (h : (n :: ns).IsChain fun a b => R b a) : ∀ m ∈ n :: ns, ReflTransGen R m n := by
  induction ns generalizing n with
  | nil =>
    intro m hm
    rw [List.mem_singleton.mp hm]
  | cons k ns ih =>
    rw [List.isChain_cons_cons] at h
    intro m hm
    rcases List.mem_cons.mp hm with rfl | hm
    · exact .refl
    · exact (ih h.2 m hm).tail h.1

theorem IsCycle.exists_transGen {R : α → α → Prop} {c : List α} (h : IsCycle R c) :
    ∃ a, TransGen R a a := by
  cases c with
  | nil => simpa using h.two_le_length
  | cons a l =>
    have hl : l ≠ [] := by
      rintro rfl
      simpa using h.two_le_length
    have hlast : (a :: l).getLast? = l.getLast? := by
      obtain ⟨b, l, rfl⟩ := List.exists_cons_of_ne_nil hl
      simp
    exact ⟨a, transGen_of_isChain h.chain (hlast.symm.trans h.closed.symm)⟩

/-- All of a cycle can be reached by a step. -/
theorem IsCycle.forall_mem {R : α → α → Prop} {p : α → Prop} {c : List α} (h : IsCycle R c)
    (hp : ∀ a b, R a b → p b) : ∀ x ∈ c, p x := by
  obtain ⟨hlen, hclosed, -, hchain⟩ := h
  cases c with
  | nil => simp
  | cons a l =>
    have hl : ∀ x ∈ l, p x := by
      clear hlen hclosed
      induction l generalizing a with
      | nil => simp
      | cons b l ih =>
        rw [List.isChain_cons_cons] at hchain
        intro x hx
        rcases List.mem_cons.mp hx with rfl | hx
        · exact hp _ _ hchain.1
        · exact ih b hchain.2 x hx
    intro x hx
    rcases List.mem_cons.mp hx with rfl | hx
    · cases l with
      | nil => simp at hlen
      | cons b l => exact hl x (List.mem_of_getLast? (by simpa using hclosed.symm))
    · exact hl x hx

theorem rank_lt_of_transGen {R : α → α → Prop} {rank : α → Nat}
    (hr : ∀ a b, R a b → rank b < rank a) {a b : α} (h : TransGen R a b) : rank b < rank a := by
  induction h with
  | single h => exact hr _ _ h
  | tail _ h ih => exact Nat.lt_trans (hr _ _ h) ih

/-- Every element of the list has all its successors behind it. -/
def Settled (R : α → α → Prop) : List α → Prop
  | [] => True
  | a :: l => (∀ b, R a b → b ∈ l) ∧ Settled R l

theorem Settled.mem_of_rel {R : α → α → Prop} {l : List α} (h : Settled R l) {a b : α} (ha : a ∈ l)
    (hab : R a b) : b ∈ l := by
  induction l with
  | nil => cases ha
  | cons c l ih =>
    rcases List.mem_cons.mp ha with rfl | ha
    · exact List.mem_cons_of_mem _ (h.1 b hab)
    · exact List.mem_cons_of_mem _ (ih h.2 ha)

/-- How many elements of the list stand from the last occurrence of `x` on. -/
def rankIn [DecidableEq α] : List α → α → Nat
  | [], _ => 0
  | _ :: l, x => if x ∈ l then rankIn l x else l.length + 1

@[simp] theorem rankIn_le_length [DecidableEq α] (l : List α) (x : α) : rankIn l x ≤ l.length := by
  induction l with
  | nil => exact Nat.le_refl _
  | cons a l ih =>
    simp only [rankIn, List.length_cons]
    split
    · omega
    · exact Nat.le_refl _

theorem rankIn_pos [DecidableEq α] {l : List α} (hl : l ≠ []) (x : α) : 0 < rankIn l x := by
  induction l with
  | nil => exact absurd rfl hl
  | cons a l ih =>
    simp only [rankIn]
    split
    · rename_i hx
      exact ih (List.ne_nil_of_mem hx)
    · exact Nat.succ_pos _

theorem Settled.rankIn_lt [DecidableEq α] {R : α → α → Prop} {l : List α} (h : Settled R l)
    {a b : α} (ha : a ∈ l) (hab : R a b) : rankIn l b < rankIn l a := by
  induction l with
  | nil => cases ha
  | cons c l ih =>
    by_cases hal : a ∈ l
    · simp only [rankIn, if_pos hal, if_pos (h.2.mem_of_rel hal hab)]
      exact ih h.2 hal
    · obtain rfl : a = c := (List.mem_cons.mp ha).resolve_right hal
      simp only [rankIn, if_neg hal, if_pos (h.1 b hab)]
      exact Nat.lt_succ_of_le (rankIn_le_length l b)

end Coinage
