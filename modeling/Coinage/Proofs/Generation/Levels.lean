import Coinage.Chance.Twister
import Coinage.Proofs.Generation.Budget
import Coinage.Proofs.Generation.Safety
import Coinage.Proofs.Pattern.Printed
import Coinage.Proofs.Rulebook.Resolution
import Mathlib

/-!
# How deep words go

A pattern goes down at most 102 levels before it comes to a rule: its root, the groups that are
nested in it, and what is in the innermost one. No rule leads back to itself, so every rule of the
rulebook adds at most 102 levels more, and no word needs a greater budget, whatever the draws are.
-/

namespace Coinage

variable {ρ α β : Type}

/-- The tree takes up at most the given number of levels, those of the rules that it refers to
included, where `rules` gives the trees of names. -/
inductive FitsIn (rules : Name → Option Tree) : Nat → Tree → Prop
  | particle {n : Nat} {v : List Char} {b : Bounds} : FitsIn rules (n + 1) (.particle v b)
  | reference {n : Nat} {name : Name} {b : Bounds} {slot : Option Int} :
      (∀ u, rules name = some u → FitsIn rules n u) →
      FitsIn rules (n + 1) (.reference name b slot)
  | choice {n : Nat} {ts : List Tree} {b : Bounds} : (∀ t ∈ ts, FitsIn rules n t) →
      FitsIn rules (n + 1) (.choice ts b)
  | sequence {n : Nat} {ts : List Tree} {b : Bounds} : (∀ t ∈ ts, FitsIn rules n t) →
      FitsIn rules (n + 1) (.sequence ts b)
  | stray {n : Nat} {b : Bounds} : FitsIn rules (n + 1) (.stray b)

namespace FitsIn

variable {rules : Name → Option Tree}

theorem mono {n m : Nat} {t : Tree} (h : FitsIn rules n t) (hle : n ≤ m) : FitsIn rules m t := by
  induction h generalizing m with
  | particle =>
    obtain ⟨m, rfl⟩ := Nat.exists_eq_add_of_le' (Nat.lt_of_lt_of_le (Nat.succ_pos _) hle)
    exact .particle
  | reference _ ih =>
    obtain ⟨m, rfl⟩ := Nat.exists_eq_add_of_le' (Nat.lt_of_lt_of_le (Nat.succ_pos _) hle)
    exact .reference fun u hu => ih u hu (Nat.le_of_succ_le_succ hle)
  | choice _ ih =>
    obtain ⟨m, rfl⟩ := Nat.exists_eq_add_of_le' (Nat.lt_of_lt_of_le (Nat.succ_pos _) hle)
    exact .choice fun t ht => ih t ht (Nat.le_of_succ_le_succ hle)
  | sequence _ ih =>
    obtain ⟨m, rfl⟩ := Nat.exists_eq_add_of_le' (Nat.lt_of_lt_of_le (Nat.succ_pos _) hle)
    exact .sequence fun t ht => ih t ht (Nat.le_of_succ_le_succ hle)
  | stray =>
    obtain ⟨m, rfl⟩ := Nat.exists_eq_add_of_le' (Nat.lt_of_lt_of_le (Nat.succ_pos _) hle)
    exact .stray

/-- A tree takes up the levels of its groups, one for a leaf, and those of the rules it refers to.
-/
theorem of_nesting {n : Nat} {t : Tree}
    (h : ∀ name u, t.Mentions name → rules name = some u → FitsIn rules n u) :
    FitsIn rules (n + 1 + t.nesting) t := by
  induction t with
  | particle v b => exact .particle
  | reference name b slot => exact .reference fun u hu => h name u .reference hu
  | choice ts b ih =>
    refine .choice fun t ht => (ih t ht fun name u hm => h name u (.choice ht hm)).mono ?_
    exact Nat.add_le_add_left (Tree.nestingAll_le_iff.mp (Nat.le_refl _) t ht) (n + 1)
  | sequence ts b ih =>
    refine .sequence fun t ht => (ih t ht fun name u hm => h name u (.sequence ht hm)).mono ?_
    exact Nat.add_le_add_left (Tree.nestingAll_le_iff.mp (Nat.le_refl _) t ht) (n + 1)
  | stray b => exact .stray

end FitsIn

theorem Pattern.nesting_root_le {s : List Char} {p : Pattern} (h : Pattern.compile s = .ok p) :
    p.root.nesting ≤ 101 := by
  obtain ⟨ts, hroot, hts⟩ := isPatternRoot_of_compile h
  have hle : Tree.nestingAll ts ≤ 100 := Tree.nestingAll_le_iff.mpr fun t ht => (hts t ht).2
  rw [hroot, Tree.nesting]
  omega

/-- A pattern takes up 102 levels and those of the rules it refers to. -/
theorem Pattern.root_fitsIn {rules : Name → Option Tree} {s : List Char} {p : Pattern} {n : Nat}
    (hp : Pattern.compile s = .ok p)
    (h : ∀ name u, p.root.Mentions name → rules name = some u → FitsIn rules n u) :
    FitsIn rules (n + 102) p.root := by
  have hnest := nesting_root_le hp
  exact (FitsIn.of_nesting h).mono (by omega)

/-- With `n` rules every rule takes up at most `102 * n` levels. -/
theorem Rulebook.rule_fitsIn {texts : Table Name (List Char)} {b : Rulebook}
    (hb : Rulebook.build (Definition.ofTexts texts) = .ok b) {name : Name} {u : Tree}
    (hu : treeOf texts name = some u) : FitsIn (treeOf texts) (102 * texts.length) u := by
  obtain ⟨rank, hle, hr⟩ := Rulebook.exists_rank_of_build hb
  have hrank : ∀ k name u, treeOf texts name = some u → rank name < k →
      FitsIn (treeOf texts) (102 * k) u := by
    intro k
    induction k with
    | zero => exact fun name u _ hk => absurd hk (Nat.not_lt_zero _)
    | succ k ih =>
      intro name u hu hk
      obtain ⟨source, p, hp, rfl⟩ := exists_compile_of_treeOf hu
      refine Pattern.root_fitsIn hp fun c v hc hv => ih c v hv ?_
      exact Nat.lt_of_lt_of_le (hr name p.root c v hu hc hv) (Nat.le_of_lt_succ hk)
  refine hrank texts.length name u hu ?_
  -- there is a rule, so there is at least one text
  have hpos : 0 < texts.length := by
    cases texts with
    | nil => cases hu
    | cons e texts => exact Nat.succ_pos _
  have hname := hle name
  omega

theorem Setting.root_fitsIn {s : Setting} {texts : Table Name (List Char)}
    (hb : Rulebook.build (Definition.ofTexts texts) = .ok s.book) {source : List Char} {p : Pattern}
    (hp : Pattern.compile source = .ok p) :
    FitsIn (treeOf texts) (102 * texts.length + 102) p.root :=
  Pattern.root_fitsIn hp fun _ _ _ hu => Rulebook.rule_fitsIn hb hu

/-- A run together with the levels of the calls that have been made in it, in their order. -/
structure Noted (ρ : Type) where
  run : Run ρ
  levels : List Nat

abbrev NotedAct (ρ : Type) := EStateM Failure (Noted ρ)

def noted (levels : List Nat) :
    EStateM.Result Failure (Run ρ) α → EStateM.Result Failure (Noted ρ) α
  | .ok a r => .ok a ⟨r, levels⟩
  | .error e r => .error e ⟨r, levels⟩

/-- An action that makes no calls. -/
def Act.quietly (act : Act ρ α) : NotedAct ρ α := fun n => noted n.levels (act n.run)

def noteLevel (level : Nat) : NotedAct ρ Unit := fun n =>
  .ok () { n with levels := n.levels ++ [level] }

/-- The expansion of a node at a level, with room for the given number of levels, that notes every
call before anything else is done in it. -/
def Setting.expandNoted [Draws ρ] (s : Setting) : (room level : Nat) → Tree → NotedAct ρ Int
  | 0, level, _ => do
    noteLevel level
    throw (.tooDeep s.budget)
  | room + 1, level, t => do
    noteLevel level
    match t with
    | .particle v b => (Act.repeated b (Act.emit v)).quietly
    | .reference name b slot =>
      let n ← (Act.count b).quietly
      times (do s.expandNoted room (level + 1) (← (s.rule name slot).quietly)) n.toNat 0
    | .choice [] _ => throw .emptyChoice
    | .choice (t :: ts) b =>
      let n ← (Act.count b).quietly
      times (do s.expandNoted room (level + 1) (← (Act.pick t ts).quietly)) n.toNat 0
    | .sequence ts b =>
      let n ← (Act.count b).quietly
      times (inOrder (s.expandNoted room (level + 1)) ts 0) n.toNat 0
    | .stray _ => throw .notANode

/-- The first action does what the second one does, and notes only levels of the given kind. -/
def Notes (x : NotedAct ρ α) (act : Act ρ α) (P : Nat → Prop) : Prop :=
  ∀ n : Noted ρ, ∃ levels, x n = noted (n.levels ++ levels) (act n.run) ∧ ∀ l ∈ levels, P l

namespace Notes

variable {x : NotedAct ρ α} {act : Act ρ α} {P Q : Nat → Prop}

theorem mono (h : Notes x act P) (hPQ : ∀ l, P l → Q l) : Notes x act Q := by
  intro n
  obtain ⟨levels, hx, hl⟩ := h n
  exact ⟨levels, hx, fun l hm => hPQ l (hl l hm)⟩

theorem quietly (act : Act ρ α) : Notes act.quietly act P :=
  fun n => ⟨[], by rw [List.append_nil, Act.quietly], by simp⟩

theorem throw (e : Failure) : Notes (throw e : NotedAct ρ α) (throw e : Act ρ α) P :=
  quietly (MonadExcept.throw e)

theorem bind {f : α → NotedAct ρ β} {g : α → Act ρ β} (h : Notes x act P)
    (hf : ∀ r a r', act r = .ok a r' → Notes (f a) (g a) P) : Notes (x >>= f) (act >>= g) P := by
  intro n
  obtain ⟨levels, hx, hl⟩ := h n
  simp only [Bind.bind, EStateM.bind, hx]
  cases ha : act n.run with
  | ok a r =>
    obtain ⟨levels', hfa, hl'⟩ := hf n.run a r ha ⟨r, n.levels ++ levels⟩
    refine ⟨levels ++ levels', ?_, List.forall_mem_append.mpr ⟨hl, hl'⟩⟩
    rw [← List.append_assoc]
    exact hfa
  | error e r => exact ⟨levels, rfl, hl⟩

theorem note {level : Nat} (hlevel : P level) (h : Notes x act P) :
    Notes (noteLevel level >>= fun _ => x) act P := by
  intro n
  obtain ⟨levels, hx, hl⟩ := h ⟨n.run, n.levels ++ [level]⟩
  refine ⟨level :: levels, ?_, List.forall_mem_cons.mpr ⟨hlevel, hl⟩⟩
  have hcall : (noteLevel level >>= fun _ => x) n = x ⟨n.run, n.levels ++ [level]⟩ := rfl
  rw [hcall, hx, List.append_assoc, List.singleton_append]

theorem inOrder {γ : Type} {f : γ → NotedAct ρ Int} {g : γ → Act ρ Int} {as : List γ}
    (h : ∀ a ∈ as, Notes (f a) (g a) P) (total : Int) :
    Notes (inOrder f as total) (inOrder g as total) P :=
  inOrder_rel (R := fun x act => Notes x act P) (fun k => quietly (pure k))
    (fun hx hf => hx.bind fun _ k _ _ => hf k) h total

theorem repeated [Draws ρ] {x : NotedAct ρ Int} {act : Act ρ Int} (b : Bounds) (h : Notes x act P) :
    Notes ((Act.count b).quietly >>= fun n => times x n.toNat 0) (Act.repeated b act) P := by
  refine (quietly (Act.count b)).bind fun _ n _ _ => ?_
  rw [times_eq_inOrder, times_eq_inOrder]
  exact inOrder (fun _ _ => h) 0

end Notes

/-- The failure is not that of a run that is cut off for its depth. -/
def NotCut (e : Failure) : Prop := ∀ budget, e ≠ .tooDeep budget

theorem FailsOnly.repeated_notCut [Draws ρ] {b : Bounds} {act : Act ρ Int} (hb : b.Valid)
    (h : FailsOnly act NotCut) : FailsOnly (Act.repeated b act) NotCut :=
  h.repeated hb.le fun _ _ => Failure.noConfusion

namespace Setting

variable [Draws ρ] {s : Setting} {texts : Table Name (List Char)}

/-- The noted expansion is the expansion, and it makes calls at those levels only that its tree
takes up. -/
theorem expandNoted_notes {rules : Name → Option Tree} (hres : s.book.Resolves rules) {n : Nat}
    {t : Tree} (hfit : FitsIn rules n t) (room level : Nat) :
    Notes (s.expandNoted room level (t.link s.book.slotOf) : NotedAct ρ Int)
      (s.expandWithin room (t.link s.book.slotOf)) fun l => l < level + n := by
  induction room generalizing n t level with
  | zero =>
    have hpos : 0 < n := by cases hfit <;> exact Nat.succ_pos _
    exact .note (Nat.lt_add_of_pos_right hpos) (.throw _)
  | succ room ih =>
    have hlevel {m : Nat} : level < level + (m + 1) := Nat.lt_add_of_pos_right (Nat.succ_pos m)
    -- the levels of a child begin one level further down
    have hchild {m : Nat} {u : Tree} (hu : FitsIn rules m u) :
        Notes (s.expandNoted room (level + 1) (u.link s.book.slotOf) : NotedAct ρ Int)
          (s.expandWithin room (u.link s.book.slotOf)) fun l => l < level + (m + 1) :=
      (ih hu (level + 1)).mono fun l hl => by omega
    cases hfit with
    | particle => exact .note hlevel (.quietly _)
    | reference hrule =>
      refine .note hlevel (.repeated _ ((Notes.quietly _).bind fun r v r' hv => ?_))
      obtain ⟨u, hu, rfl⟩ := rule_eq_ok hres hv
      exact hchild (hrule u hu)
    | @choice _ ts b hts =>
      rw [Tree.link_choice]
      cases ts with
      | nil => exact .note hlevel (.throw _)
      | cons t ts =>
        refine .note hlevel (.repeated _ ((Notes.quietly _).bind fun r v r' hv => ?_))
        have hmem : v ∈ (t :: ts).map (Tree.link s.book.slotOf) := (Act.pick_eq_ok hv).1
        obtain ⟨u, hu, rfl⟩ := List.mem_map.mp hmem
        exact hchild (hts u hu)
    | sequence hts =>
      rw [Tree.link_sequence]
      refine .note hlevel (.repeated _ (Notes.inOrder (fun v hv => ?_) 0))
      obtain ⟨u, hu, rfl⟩ := List.mem_map.mp hv
      exact hchild (hts u hu)
    | stray => exact .note hlevel (.throw _)

/-- With room for all the levels that a tree takes up its expansion is not cut off. -/
theorem expandWithin_notCut (hb : Rulebook.build (Definition.ofTexts texts) = .ok s.book)
    {room : Nat} {u : Tree} (hu : u.Shaped) (hfit : FitsIn (treeOf texts) room u) :
    FailsOnly (s.expandWithin room (u.link s.book.slotOf) : Act ρ Int) NotCut := by
  refine expandWithin_induct_room
    (motive := fun n u act => FitsIn (treeOf texts) n u → FailsOnly act NotCut)
    hb ?tooDeep ?particle ?undefined ?defined ?choice ?sequence room hu hfit
  case tooDeep =>
    intro u hfit
    cases hfit
  case particle => exact fun n c b hv _ => (FailsOnly.emit _).repeated_notCut hv
  case undefined =>
    intro n name b slot hv ht _
    exact (FailsOnly.of_throw fun _ => Failure.noConfusion).repeated_notCut hv
  case defined =>
    intro n name b slot t act hv ht ih hfit
    cases hfit with
    | reference hrule => exact (ih (hrule t ht)).repeated_notCut hv
  case choice =>
    intro n t ts b f hv ih hfit
    cases hfit with
    | choice hts =>
      refine (FailsOnly.bind ?_ fun r u r' hp => ?_).repeated_notCut hv
      · intro r e r' hp
        rw [Act.pick_eq_error hp]
        exact fun _ => Failure.noConfusion
      · have hu : u ∈ t :: ts := (Act.pick_eq_ok hp).1
        exact ih u hu (hts u hu)
  case sequence =>
    intro n ts b f hv ih hfit
    cases hfit with
    | sequence hts => exact (FailsOnly.inOrder (fun u hu => ih u hu (hts u hu)) 0).repeated_notCut hv

@[simp] theorem room_withBudget (hc : s.ceiling = none) (budget : Int) :
    (s.withBudget budget).room 0 = (budget + 1).toNat := by
  simp [room, withBudget, hc]

/-- No word needs more than a bounded number of levels. With `n` texts as rules, whatever the draws,
the budget and the level limit are, making a word from a pattern calls nothing at a level beyond
`102 * n + 101`. So where there is no level limit, all budgets from this one on let a pattern come
to one and the same end, and that is not for its depth. -/
theorem levels_are_bounded (hb : Rulebook.build (Definition.ofTexts texts) = .ok s.book)
    {source : List Char} {p : Pattern} (hp : Pattern.compile source = .ok p) (r : Run ρ) :
    (∃ levels, s.expandNoted (s.room 0) 0 (p.root.link s.book.slotOf) ⟨r, []⟩ =
        noted levels (s.expand (p.root.link s.book.slotOf) 0 r) ∧
      ∀ l ∈ levels, l ≤ 102 * texts.length + 101) ∧
    (s.ceiling = none → ∃ ending, (∀ a r', ending = .error a r' → NotCut a.failure) ∧
      ∀ budget : Int, 102 * texts.length + 101 ≤ budget →
        (s.withBudget budget).generate p.root r = ending) := by
  have hfit : FitsIn (treeOf texts) (102 * texts.length + 102) p.root := root_fitsIn hb hp
  refine ⟨?_, fun hc => ?_⟩
  · obtain ⟨levels, hrun, hl⟩ :=
      expandNoted_notes (ρ := ρ) (Rulebook.resolves_of_build hb) hfit (s.room 0) 0 ⟨r, []⟩
    exact ⟨levels, hrun, fun l hm => by have := hl l hm; omega⟩
  · let least : Setting := s.withBudget (102 * texts.length + 101)
    have hshaped := Pattern.shaped_root hp
    have hroom : least.room 0 = 102 * texts.length + 102 := by
      rw [room_withBudget hc]
      omega
    have hnot : FailsOnly (least.expand (p.root.link s.book.slotOf) 0 : Act ρ Int) NotCut :=
      expandWithin_notCut (s := least) hb hshaped (hroom ▸ hfit)
    refine ⟨least.generate p.root r, fun a r' ha => ?_, fun budget hle => ?_⟩
    · rw [generate_eq_word hshaped] at ha
      exact hnot r a.failure r' (word_eq_error.mp ha).1
    · have hsame : ((s.withBudget budget).expand (p.root.link s.book.slotOf) 0 : Act ρ Int) =
          least.expand (p.root.link s.book.slotOf) 0 := by
        funext r
        have houtlasts := least.expandWithin_outlasts (ρ := ρ) budget
          (s.room_withBudget_le hle 0) (p.root.link s.book.slotOf)
        obtain ⟨M, r', hcut, -⟩ | hsame := houtlasts.cut_or_same r
        · exact absurd rfl (hnot r _ r' hcut M)
        · exact hsame
      rw [generate_eq_word hshaped, generate_eq_word hshaped]
      exact congrFun (word_congr hsame) r

/-- A production, whose rule takes the word down to level three. -/
theorem levels_are_bounded_rule :
    let s : Setting := ⟨7, ⟨[['v']], [.sequence [.particle ['e'] ⟨2, 2⟩] .once]⟩, 5, none⟩
    let r : Run Twister := ⟨.ofSeed 7, #['x']⟩
    let texts : Table Name (List Char) := [(['v'], "e\x7b2,2\x7d".toList)]
    let t : Tree := .sequence [.reference ['v'] .once none] .once
    Rulebook.build (Definition.ofTexts texts) = .ok s.book ∧
      Pattern.compile "$v".toList = .ok ⟨"$v".toList, t⟩ ∧
      s.expandNoted (s.room 0) 0 (t.link s.book.slotOf) ⟨r, []⟩ =
        .ok 2 ⟨{ r with text := #['x', 'e', 'e'] }, [0, 1, 2, 3]⟩ ∧
      (s.withBudget 1000).generate t r = (s.withBudget 203).generate t r := by
  intro s r texts t
  have hb : Rulebook.build (Definition.ofTexts texts) = .ok s.book := by cbv
  have hp : Pattern.compile "$v".toList = .ok ⟨"$v".toList, t⟩ := by cbv
  have hnoted : s.expandNoted (s.room 0) 0 (t.link s.book.slotOf) ⟨r, []⟩ =
      .ok 2 ⟨{ r with text := #['x', 'e', 'e'] }, [0, 1, 2, 3]⟩ := rfl
  obtain ⟨-, hending⟩ := levels_are_bounded hb hp r
  obtain ⟨ending, -, hsame⟩ := hending rfl
  exact ⟨hb, hp, hnoted, (hsame 1000 (by decide)).trans (hsame 203 (by decide)).symm⟩

end Setting

end Coinage
