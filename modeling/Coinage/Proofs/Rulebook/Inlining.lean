import Coinage.Proofs.Rulebook.Resolution

/-!
# Putting rules in place of names

Named productions are macros: a reference stands for the children of its rule, repeated as the
reference is. Where references fall in rank, as they do in every accepted table, all names can be
replaced in this way at once, and as many rounds of replacing as there are ranks do it.
-/

namespace Coinage

/-- What it is to replace every reference that has a rule by the children of the rule, in which the
references are replaced in the same way. Rules are sequences, as the roots of patterns are.
References without a rule stay in place. -/
structure Inlining (rules : Name → Option Tree) (inl : Tree → Tree) : Prop where
  particle (v : List Char) (b : Bounds) : inl (.particle v b) = .particle v b
  defined {name : Name} {us : List Tree} {c : Bounds} (b : Bounds) (slot : Option Int) :
    rules name = some (.sequence us c) →
      inl (.reference name b slot) = .sequence (us.map inl) b
  undefined {name : Name} (b : Bounds) (slot : Option Int) : rules name = none →
    inl (.reference name b slot) = .reference name b slot
  choice (ts : List Tree) (b : Bounds) : inl (.choice ts b) = .choice (ts.map inl) b
  sequence (ts : List Tree) (b : Bounds) : inl (.sequence ts b) = .sequence (ts.map inl) b
  stray (b : Bounds) : inl (.stray b) = .stray b

namespace Tree

mutual

/-- Puts the children of rules, as they are, in place of references. -/
def graft (rules : Name → Option Tree) : Tree → Tree
  | particle v b => particle v b
  | reference name b slot =>
    match rules name with
    | some (sequence us _) => sequence us b
    | _ => reference name b slot
  | choice ts b => choice (graftAll rules ts) b
  | sequence ts b => sequence (graftAll rules ts) b
  | stray b => stray b

/-- Puts rules in place of the references of each of the trees. -/
def graftAll (rules : Name → Option Tree) : List Tree → List Tree
  | [] => []
  | t :: ts => t.graft rules :: graftAll rules ts

end

/-- Replaces references by their rules, in which references are replaced one round less deep. -/
def inlineWithin (rules : Name → Option Tree) : (rounds : Nat) → Tree → Tree
  | 0 => id
  | n + 1 => graft fun name => (rules name).map (inlineWithin rules n)

variable {rules f g : Name → Option Tree}

@[simp] theorem graftAll_eq_map (ts : List Tree) : graftAll rules ts = ts.map (graft rules) := by
  induction ts with
  | nil => rfl
  | cons t ts ih => simp [graftAll, ih]

theorem graft_congr {t : Tree} (h : ∀ c, t.Mentions c → f c = g c) : t.graft f = t.graft g := by
  induction t with
  | particle v b => rfl
  | reference name b slot => simp only [graft, h name .reference]
  | choice ts b ih =>
    simp only [graft, graftAll_eq_map]
    rw [List.map_congr_left fun t ht => ih t ht fun c hc => h c (.choice ht hc)]
  | sequence ts b ih =>
    simp only [graft, graftAll_eq_map]
    rw [List.map_congr_left fun t ht => ih t ht fun c hc => h c (.sequence ht hc)]
  | stray b => rfl

@[simp] theorem graft_none (t : Tree) : t.graft (fun _ => none) = t := by
  induction t with
  | particle v b => rfl
  | reference name b slot => rfl
  | choice ts b ih => rw [graft, graftAll_eq_map, List.map_congr_left ih, List.map_id']
  | sequence ts b ih => rw [graft, graftAll_eq_map, List.map_congr_left ih, List.map_id']
  | stray b => rfl

@[simp] theorem inlineWithin_choice (n : Nat) (ts : List Tree) (b : Bounds) :
    inlineWithin rules n (choice ts b) = choice (ts.map (inlineWithin rules n)) b := by
  cases n with
  | zero => simp [inlineWithin]
  | succ n => simp [inlineWithin, graft]

@[simp] theorem inlineWithin_sequence (n : Nat) (ts : List Tree) (b : Bounds) :
    inlineWithin rules n (sequence ts b) = sequence (ts.map (inlineWithin rules n)) b := by
  cases n with
  | zero => simp [inlineWithin]
  | succ n => simp [inlineWithin, graft]

section

variable {rank : Name → Nat}

/-- More rounds change nothing once there are as many as the ranks in the tree. -/
theorem inlineWithin_eq_of_le
    (hr : ∀ a u c v, rules a = some u → u.Mentions c → rules c = some v → rank c < rank a)
    {n m : Nat} (hnm : n ≤ m) {t : Tree}
    (ht : ∀ c v, t.Mentions c → rules c = some v → rank c < n) :
    inlineWithin rules m t = inlineWithin rules n t := by
  induction n generalizing m t with
  | zero =>
    cases m with
    | zero => rfl
    | succ m =>
      refine (graft_congr fun c hc => ?_).trans (graft_none t)
      cases hv : rules c with
      | none => rfl
      | some v => exact absurd (ht c v hc hv) (Nat.not_lt_zero _)
  | succ n ih =>
    obtain ⟨m, rfl⟩ := Nat.exists_eq_add_of_le' (Nat.lt_of_lt_of_le n.succ_pos hnm)
    refine graft_congr fun c hc => ?_
    cases hv : rules c with
    | none => rfl
    | some v =>
      refine congrArg some (ih (Nat.le_of_succ_le_succ hnm) fun d w hd hw => ?_)
      exact Nat.lt_of_lt_of_le (hr c v d w hv hd hw) (Nat.le_of_lt_succ (ht c v hc hv))

/-- One round more than there are ranks replaces every reference that has a rule. -/
theorem inlining_inlineWithin {n : Nat} (hn : ∀ name, rank name ≤ n)
    (hr : ∀ a u c v, rules a = some u → u.Mentions c → rules c = some v → rank c < rank a) :
    Inlining rules (inlineWithin rules (n + 1)) where
  particle v b := rfl
  defined {name us c} b slot h := by
    have hus : us.map (inlineWithin rules (n + 1)) = us.map (inlineWithin rules n) := by
      refine List.map_congr_left fun t ht => inlineWithin_eq_of_le hr n.le_succ fun d w hd hw => ?_
      exact Nat.lt_of_lt_of_le (hr name _ d w h (.sequence ht hd) hw) (hn name)
    rw [hus, inlineWithin]
    simp only [graft, h, Option.map_some, inlineWithin_sequence]
  undefined {name} b slot h := by simp [inlineWithin, graft, h]
  choice := inlineWithin_choice (n + 1)
  sequence := inlineWithin_sequence (n + 1)
  stray b := rfl

end

end Tree

end Coinage
