import Coinage.Proofs.Lists
import Coinage.Tree

/-!
# The language of a tree

Which words a tree stands for, by the kinds of its nodes alone: no draws, no slots and no depth.
-/

namespace Coinage

structure Bounds.Admits (b : Bounds) (k : Nat) : Prop where
  lo_le : b.lo ≤ k
  le_hi : k ≤ b.hi

/-- The words of a tree, where `rules` gives the trees of names. Every repetition of a particle is
its text, of a reference a word of its rule, of an alternation a word of one of its children, and of
a sequence one word of every child in order. Without a rule a reference has no repetition. -/
inductive Speaks (rules : Name → Option Tree) : Tree → List Char → Prop
  | particle {v : List Char} {b : Bounds} {k : Nat} : b.Admits k →
      Speaks rules (.particle v b) (List.replicate k v).flatten
  | reference {name : Name} {b : Bounds} {slot : Option Int} {t : Tree} {ws : List (List Char)} :
      rules name = some t → b.Admits ws.length → (∀ w ∈ ws, Speaks rules t w) →
      Speaks rules (.reference name b slot) ws.flatten
  | undefined {name : Name} {b : Bounds} {slot : Option Int} : rules name = none → b.Admits 0 →
      Speaks rules (.reference name b slot) []
  | choice {ts : List Tree} {b : Bounds} {picks : List (Tree × List Char)} :
      b.Admits picks.length → (∀ e ∈ picks, e.1 ∈ ts) → (∀ e ∈ picks, Speaks rules e.1 e.2) →
      Speaks rules (.choice ts b) (picks.map Prod.snd).flatten
  | sequence {ts : List Tree} {b : Bounds} {rounds : List (List (List Char))} :
      b.Admits rounds.length → (∀ ws ∈ rounds, ws.length = ts.length) →
      (∀ ws ∈ rounds, ∀ e ∈ ts.zip ws, Speaks rules e.1 e.2) →
      Speaks rules (.sequence ts b) (rounds.map List.flatten).flatten

/-- The words of some repetitions within the bounds, each of them in the language. -/
def Repeats (b : Bounds) (L : List Char → Prop) (w : List Char) : Prop :=
  ∃ ws : List (List Char), b.Admits ws.length ∧ (∀ v ∈ ws, L v) ∧ ws.flatten = w

/-- One word for every element in order. -/
def Round {α : Type} (L : α → List Char → Prop) (as : List α) (w : List Char) : Prop :=
  ∃ vs : List (List Char), vs.length = as.length ∧ (∀ e ∈ as.zip vs, L e.1 e.2) ∧ vs.flatten = w

@[simp] theorem round_map {α β : Type} (L : β → List Char → Prop) (h : α → β) (as : List α) :
    Round L (as.map h) = Round (fun a => L (h a)) as := by
  funext w
  simp only [Round, List.length_map, List.zip_map_left, List.forall_mem_map, Prod.map_fst,
    Prod.map_snd, id_eq]

namespace Speaks

variable {rules : Name → Option Tree} {b : Bounds} {w : List Char}

theorem of_repeats_particle {v : List Char} (h : Repeats b (· = v) w) :
    Speaks rules (.particle v b) w := by
  obtain ⟨ws, hk, hv, rfl⟩ := h
  rw [List.eq_replicate_of_mem hv]
  exact .particle hk

theorem of_repeats_reference {name : Name} {slot : Option Int} {t : Tree}
    (ht : rules name = some t) (h : Repeats b (Speaks rules t) w) :
    Speaks rules (.reference name b slot) w := by
  obtain ⟨ws, hk, hv, rfl⟩ := h
  exact .reference ht hk hv

theorem of_repeats_undefined {name : Name} {slot : Option Int} (hn : rules name = none)
    (h : Repeats b (fun _ => False) w) : Speaks rules (.reference name b slot) w := by
  obtain ⟨ws, hk, hv, rfl⟩ := h
  cases ws with
  | nil => exact .undefined hn hk
  | cons v ws => exact (hv v List.mem_cons_self).elim

theorem of_repeats_choice {ts : List Tree} (h : Repeats b (fun v => ∃ t ∈ ts, Speaks rules t v) w) :
    Speaks rules (.choice ts b) w := by
  obtain ⟨ws, hk, hv, rfl⟩ := h
  have hpick : ∀ v ∈ ws, ∃ e : Tree × List Char, e.2 = v ∧ e.1 ∈ ts ∧ Speaks rules e.1 e.2 := by
    intro v hv'
    obtain ⟨t, ht, hs⟩ := hv v hv'
    exact ⟨(t, v), rfl, ht, hs⟩
  obtain ⟨picks, rfl, hp⟩ := exists_map_eq hpick
  rw [List.length_map] at hk
  exact .choice hk (fun e he => (hp e he).1) fun e he => (hp e he).2

theorem of_repeats_sequence {ts : List Tree} (h : Repeats b (Round (Speaks rules) ts) w) :
    Speaks rules (.sequence ts b) w := by
  obtain ⟨ws, hk, hv, rfl⟩ := h
  have hround : ∀ v ∈ ws, ∃ vs : List (List Char), vs.flatten = v ∧
      vs.length = ts.length ∧ ∀ e ∈ ts.zip vs, Speaks rules e.1 e.2 := by
    intro v hv'
    obtain ⟨vs, hl, hs, he⟩ := hv v hv'
    exact ⟨vs, he, hl, hs⟩
  obtain ⟨rounds, rfl, hr⟩ := exists_map_eq hround
  rw [List.length_map] at hk
  exact .sequence hk (fun vs hvs => (hr vs hvs).1) fun vs hvs => (hr vs hvs).2

theorem repeats_particle {v : List Char} (h : Speaks rules (.particle v b) w) :
    Repeats b (· = v) w := by
  cases h with
  | @particle _ _ k hk =>
    exact ⟨List.replicate k v, by rwa [List.length_replicate], fun _ => List.eq_of_mem_replicate, rfl⟩

theorem repeats_reference {name : Name} {slot : Option Int} {t : Tree} (ht : rules name = some t)
    (h : Speaks rules (.reference name b slot) w) : Repeats b (Speaks rules t) w := by
  cases h with
  | @reference _ _ _ u ws hu hk hws =>
    obtain rfl : t = u := Option.some.inj (ht.symm.trans hu)
    exact ⟨ws, hk, hws, rfl⟩
  | undefined hn => cases ht.symm.trans hn

theorem repeats_undefined {name : Name} {slot : Option Int} (hn : rules name = none)
    (h : Speaks rules (.reference name b slot) w) : Repeats b (fun _ => False) w := by
  cases h with
  | reference hu => cases hn.symm.trans hu
  | undefined _ hk => exact ⟨[], hk, fun _ => List.not_mem_nil, rfl⟩

theorem repeats_choice {ts : List Tree} (h : Speaks rules (.choice ts b) w) :
    Repeats b (fun v => ∃ t ∈ ts, Speaks rules t v) w := by
  cases h with
  | @choice _ _ picks hk hmem hs =>
    refine ⟨picks.map Prod.snd, by rwa [List.length_map], fun v hv => ?_, rfl⟩
    obtain ⟨e, he, rfl⟩ := List.mem_map.mp hv
    exact ⟨e.1, hmem e he, hs e he⟩

theorem repeats_sequence {ts : List Tree} (h : Speaks rules (.sequence ts b) w) :
    Repeats b (Round (Speaks rules) ts) w := by
  cases h with
  | @sequence _ _ rounds hk hlen hs =>
    refine ⟨rounds.map List.flatten, by rwa [List.length_map], fun v hv => ?_, rfl⟩
    obtain ⟨vs, hvs, rfl⟩ := List.mem_map.mp hv
    exact ⟨vs, hlen vs hvs, hs vs hvs, rfl⟩

end Speaks

end Coinage
