import Coinage.Proofs.Chance.Script
import Coinage.Proofs.Generation.Follows
import Coinage.Proofs.Generation.Relinked
import Coinage.Proofs.Tree.Preorder
import Mathlib

/-!
# Fixed repetitions are written out

A node of fixed bounds draws nothing: it is run as many times as the bounds tell, one time after the
other. In a sequence the same comes of as many copies of the node, and of the children of the node
if it is a sequence itself; only the levels between are left out then. Written out in this way, in
the tree or in the rules, the node stands under repetitions, alternations and references as before.
-/

namespace Coinage

variable {ρ α : Type}

namespace Tree

def withBounds (b : Bounds) : Tree → Tree
  | particle v _ => particle v b
  | reference name _ slot => reference name b slot
  | choice ts _ => choice ts b
  | sequence ts _ => sequence ts b
  | stray _ => stray b

@[simp] theorem withBounds_bounds (t : Tree) : t.withBounds t.bounds = t := by
  cases t <;> rfl

/-- What may stand in a sequence in place of a child of fixed bounds: as many copies of the child,
each of them run once, or as many times over the children of the child, if it is a sequence. -/
inductive WrittenOut : Tree → List Tree → Prop
  | copies {t : Tree} {k : Nat} : t.bounds = ⟨k, k⟩ →
      WrittenOut t (List.replicate k (t.withBounds .once))
  | splice {ts : List Tree} {k : Nat} :
      WrittenOut (sequence ts ⟨k, k⟩) (List.replicate k ts).flatten

/-- Somewhere in the tree one child of a sequence is written out. -/
inductive Unrolled : Tree → Tree → Prop
  | child {t : Tree} {us before after : List Tree} {b : Bounds} : WrittenOut t us →
      Unrolled (sequence (before ++ t :: after) b) (sequence (before ++ us ++ after) b)
  | choice {t u : Tree} {before after : List Tree} {b : Bounds} : Unrolled t u →
      Unrolled (choice (before ++ t :: after) b) (choice (before ++ u :: after) b)
  | sequence {t u : Tree} {before after : List Tree} {b : Bounds} : Unrolled t u →
      Unrolled (sequence (before ++ t :: after) b) (sequence (before ++ u :: after) b)

/-- No node of the tree fails before its bounds are looked at: none is bare bounds, and every
alternation has something to choose from. -/
def Workable (t : Tree) : Prop :=
  ∀ u, t.HasNode u → (∀ b, u ≠ .stray b) ∧ ∀ b, u ≠ .choice [] b

theorem Workable.of_mem_choice {ts : List Tree} {b : Bounds} (h : (Tree.choice ts b).Workable)
    {t : Tree} (ht : t ∈ ts) : t.Workable :=
  fun u hu => h u (HasNode.trans (.choice .self ht) hu)

theorem Workable.of_mem_sequence {ts : List Tree} {b : Bounds}
    (h : (Tree.sequence ts b).Workable) {t : Tree} (ht : t ∈ ts) : t.Workable :=
  fun u hu => h u (HasNode.trans (.sequence .self ht) hu)

/-- Linked trees are workable unless an alternation has nothing to choose from. -/
theorem workable_of_link? {slotOf : Name → Option Int} {t v : Tree} (h : t.link? slotOf = some v)
    (hne : ∀ b, ¬v.HasNode (.choice [] b)) : v.Workable := by
  rw [link?, Option.ite_none_right_eq_some, Option.some.injEq] at h
  obtain ⟨hproper, rfl⟩ := h
  refine fun u hu => ⟨fun b hstray => ?_, fun b hempty => hne b (hempty ▸ hu)⟩
  obtain ⟨w, hw, rfl⟩ := hasNode_link_iff.mp hu
  have hw := isProper_of_hasNode hproper hw
  cases w <;> simp_all [link, isProper]

theorem Shaped.workable_link {t : Tree} (h : t.Shaped) (slotOf : Name → Option Int) :
    (t.link slotOf).Workable := by
  refine workable_of_link? (h.link?_eq slotOf) fun b hb => ?_
  obtain ⟨u, hu, hlink⟩ := hasNode_link_iff.mp hb
  cases h.of_hasNode hu with
  | choice _ hne _ =>
    rw [link_choice, choice.injEq] at hlink
    exact hne (List.map_eq_nil_iff.mp hlink.1.symm)
  | _ => cases hlink

end Tree

/-- In the middle of a list, a part may be replaced by another one that stays in step with it. -/
theorem Follows.inOrder_middle {f : α → Act ρ Int} {a : α} {bs : List α}
    (h : Follows (f a) (Coinage.inOrder f bs 0)) (before after : List α) (total : Int) :
    Follows (Coinage.inOrder f (before ++ a :: after) total)
      (Coinage.inOrder f (before ++ bs ++ after) total) := by
  rw [List.append_assoc, inOrder_append, inOrder_append]
  refine (refl _).bind fun m => ?_
  rw [inOrder_cons, inOrder_append, inOrder_total, bind_assoc]
  refine h.bind fun k => ?_
  rw [pure_bind]
  exact refl _

@[simp] theorem Act.repeated_fixed [Draws ρ] (k : Nat) (act : Act ρ Int) :
    repeated ⟨k, k⟩ act = times act k 0 := by
  rw [repeated, count_of_eq rfl, pure_bind, Int.toNat_natCast]

/-- A slot has rules at the same place in both rulebooks, or in none. -/
theorem Rulebook.rel_rule? {R : Tree → Tree → Prop} {b b' : Rulebook}
    (h : List.Forall₂ R b.rules b'.rules) (i : Int) : Option.Rel R (b.rule? i) (b'.rule? i) := by
  simp only [rule?, ← h.length_eq]
  split
  · exact rel_getElem? h _
  · split
    · exact rel_getElem? h _
    · exact .none

namespace Setting

variable [Draws ρ] {s : Setting} {room : Nat} {t u v : Tree}

/-- What a node does each time does not depend on its bounds. -/
theorem exists_expandWithin_withBounds (s : Setting) (room : Nat) (ht : t.Workable) :
    ∃ act : Act ρ Int, ∀ b, s.expandWithin (room + 1) (t.withBounds b) = Act.repeated b act := by
  obtain ⟨hstray, hempty⟩ := ht t .self
  cases t with
  | particle v c => exact ⟨_, fun b => s.expandWithin_particle room b v⟩
  | reference name c slot => exact ⟨_, fun b => s.expandWithin_reference room b name slot⟩
  | choice ts c =>
    cases ts with
    | nil => exact absurd rfl (hempty c)
    | cons u us => exact ⟨_, fun b => s.expandWithin_choice room b u us⟩
  | sequence ts c => exact ⟨_, fun b => s.expandWithin_sequence room b ts⟩
  | stray c => exact absurd rfl (hstray c)

theorem expandWithin_writtenOut (s : Setting) (room : Nat) (ht : t.Workable) {us : List Tree}
    (h : t.WrittenOut us) :
    Follows (s.expandWithin room t : Act ρ Int) (inOrder (s.expandWithin room) us 0) := by
  cases room with
  | zero =>
    rw [expandWithin_zero]
    exact .of_tooDeep _ _
  | succ room =>
    cases h with
    | @copies _ k hk =>
      obtain ⟨act, hact⟩ := s.exists_expandWithin_withBounds (ρ := ρ) room ht
      have honce : s.expandWithin (room + 1) (t.withBounds .once) = act :=
        (hact .once).trans (Act.repeated_once act)
      have hnode : s.expandWithin (room + 1) t = times act k 0 := by
        rw [← Act.repeated_fixed, ← hk, ← hact, t.withBounds_bounds]
      rw [inOrder_replicate, honce, hnode]
      exact .refl _
    | @splice ts k =>
      -- the children stand one level higher now
      have hchild : ∀ u ∈ ts, Follows (s.expandWithin room u : Act ρ Int)
          (s.expandWithin (room + 1) u) := fun u _ =>
        (s.expandWithin_outlasts s.budget room.le_succ u).follows
      rw [expandWithin_sequence, Act.repeated_fixed, inOrder_flatten, inOrder_replicate]
      exact Follows.stepwise.times (Follows.stepwise.inOrder hchild 0) k 0

/-- Writing out a node stays in step, whatever stands around it. -/
theorem expandWithin_unrolled (s : Setting) (room : Nat) (ht : t.Workable) (h : t.Unrolled u) :
    Follows (s.expandWithin room t : Act ρ Int) (s.expandWithin room u) := by
  induction h generalizing room with
  | @child t us before after b h =>
    cases room with
    | zero => exact .of_tooDeep _ _
    | succ room =>
      have hpart := s.expandWithin_writtenOut (ρ := ρ) room (ht.of_mem_sequence (by simp)) h
      rw [expandWithin_sequence, expandWithin_sequence]
      exact (hpart.inOrder_middle before after 0).repeated b
  | @choice t u before after b h ih =>
    cases room with
    | zero => exact .of_tooDeep _ _
    | succ room =>
      have hpart := ih room (ht.of_mem_choice (by simp))
      have hall : List.Forall₂
          (fun v w => Follows (s.expandWithin room v : Act ρ Int) (s.expandWithin room w))
          (before ++ t :: after) (before ++ u :: after) :=
        List.rel_append (List.forall₂_same.mpr fun v _ => .refl _)
          (.cons hpart (List.forall₂_same.mpr fun v _ => .refl _))
      cases before with
      | nil => exact (Follows.pick hall).repeated b
      | cons v before => exact (Follows.pick hall).repeated b
  | @sequence t u before after b h ih =>
    cases room with
    | zero => exact .of_tooDeep _ _
    | succ room =>
      have hpart := ih room (ht.of_mem_sequence (by simp))
      rw [← inOrder_singleton (s.expandWithin room) u] at hpart
      have hmiddle := hpart.inOrder_middle before after 0
      rw [List.append_assoc, List.singleton_append] at hmiddle
      rw [expandWithin_sequence, expandWithin_sequence]
      exact hmiddle.repeated b

/-- Writing out nodes in the rules stays in step, too. -/
theorem expandWithin_unrolledRules {b' : Rulebook} (hwork : ∀ rule ∈ s.book.rules, rule.Workable)
    (hrules : List.Forall₂ (Relation.ReflGen Tree.Unrolled) s.book.rules b'.rules) (room : Nat)
    (t : Tree) :
    Follows (s.expandWithin room t : Act ρ Int) ((s.withBook b').expandWithin room t) := by
  have hboth := (List.forall₂_and_left _ _).mpr ⟨hwork, hrules⟩
  refine Follows.stepwise.expandWithin s (s.withBook b') (.refl _) (fun n name slot h => ?_) room t
  cases slot with
  | none => exact .refl _
  | some i =>
    have hslot := Rulebook.rel_rule? hboth i
    simp only [rule, book_withBook]
    generalize s.book.rule? i = v, b'.rule? i = w at hslot
    cases hslot with
    | none => exact .refl _
    | some hvw =>
      obtain ⟨hv, hstep⟩ := hvw
      rw [pure_bind, pure_bind]
      cases hstep with
      | refl => exact h _
      | single hstep => exact (h _).trans (expandWithin_unrolled _ n hv hstep)

variable {texts : Table Name (List Char)}

/-- A fixed repetition is juxtaposition. For an accepted table of texts and a linked tree whose
alternations all have something to choose from, let a child of fixed bounds be written out somewhere
in the tree, in rules, or in both. Then expanding the tree gives the same result or failure, the
same text and the same draws as before, unless the tree as it was is cut off for its depth. -/
theorem fixed_repetition_is_juxtaposition
    (hb : Rulebook.build (Definition.ofTexts texts) = .ok s.book)
    (hv : t.link? s.book.slotOf = some v) (hne : ∀ b, ¬v.HasNode (.choice [] b))
    (hu : Relation.ReflGen Tree.Unrolled v u) {b' : Rulebook}
    (hrules : List.Forall₂ (Relation.ReflGen Tree.Unrolled) s.book.rules b'.rules) (r : Run ρ) :
    (∀ level, (∀ budget r', s.expand v level r ≠ .error (.tooDeep budget) r') →
      (s.withBook b').expand u level r = s.expand v level r) ∧
    ((∀ budget written r', s.word v r ≠ .error ⟨.tooDeep budget, written⟩ r') →
      (s.withBook b').word u r = s.word v r) := by
  have hwork : ∀ rule ∈ s.book.rules, rule.Workable := by
    intro rule hrule
    obtain ⟨w, hw, rfl⟩ := Rulebook.exists_shaped_of_mem_rules hb hrule
    exact hw.workable_link _
  refine same_of_follows (fun level => ?_) r
  have hbook : Follows (s.expand v level : Act ρ Int) ((s.withBook b').expand v level) :=
    expandWithin_unrolledRules hwork hrules (s.room level) v
  cases hu with
  | refl => exact hbook
  | single h =>
    exact hbook.trans (expandWithin_unrolled _ _ (Tree.workable_of_link? hv hne) h)

/-- A letter that an alternation runs twice, and two letters that a rule runs twice. -/
theorem fixed_repetition_is_juxtaposition_twice :
    let e : Tree := .particle ['e'] .once
    let f : Tree := .particle ['f'] .once
    let rule : Tree := .sequence [.sequence [e, f] ⟨2, 2⟩] .once
    let rule' : Tree := .sequence [e, f, e, f] .once
    let s : Setting := ⟨7, ⟨[['v']], [rule]⟩, 9, none⟩
    let texts : Table Name (List Char) := [(['v'], "(ef)\x7b2,2\x7d".toList)]
    let v : Tree := .choice [e, .sequence [.particle ['a'] ⟨2, 2⟩, .reference ['v'] .once (some 0)]
      .once] .once
    let u : Tree := .choice [e, .sequence [.particle ['a'] .once, .particle ['a'] .once,
      .reference ['v'] .once (some 0)] .once] .once
    let b' : Rulebook := ⟨[['v']], [rule']⟩
    let r : Run Script := ⟨⟨[1]⟩, #['x']⟩
    Rulebook.build (Definition.ofTexts texts) = .ok s.book ∧ v.link? s.book.slotOf = some v ∧
      v.Unrolled u ∧ rule.Unrolled rule' ∧
      s.expand v 0 r = .ok 6 ⟨⟨[]⟩, #['x', 'a', 'a', 'e', 'f', 'e', 'f']⟩ ∧
      (s.withBook b').expand u 0 r = s.expand v 0 r := by
  intro e f rule rule' s texts v u b' r
  have hb : Rulebook.build (Definition.ofTexts texts) = .ok s.book := by cbv
  have hv : v.link? s.book.slotOf = some v := by cbv
  have hne (b : Bounds) : ¬v.HasNode (.choice [] b) := by
    intro h
    obtain ⟨level, hlevel⟩ := (@Tree.hasNode_iff_mem_preorder _ _ 0).mp h
    simp [v, e, Tree.preorder, Tree.preorderAll] at hlevel
  have hletters : (Tree.particle ['a'] ⟨2, 2⟩).WrittenOut
      [.particle ['a'] .once, .particle ['a'] .once] := @Tree.WrittenOut.copies _ 2 rfl
  have hu : v.Unrolled u :=
    @Tree.Unrolled.choice _ _ [e] [] _ (@Tree.Unrolled.child _ _ [] _ _ hletters)
  have hrule : rule.Unrolled rule' :=
    @Tree.Unrolled.child _ _ [] [] _ (@Tree.WrittenOut.splice [e, f] 2)
  have hrun : s.expand v 0 r = .ok 6 ⟨⟨[]⟩, #['x', 'a', 'a', 'e', 'f', 'e', 'f']⟩ := rfl
  have hrules : List.Forall₂ (Relation.ReflGen Tree.Unrolled) s.book.rules b'.rules :=
    .cons (.single hrule) .nil
  obtain ⟨hsame, -⟩ := fixed_repetition_is_juxtaposition hb hv hne (.single hu) hrules r
  exact ⟨hb, hv, hu, hrule, hrun, hsame 0 fun budget r' h => by cases hrun.symm.trans h⟩

end Setting

end Coinage
