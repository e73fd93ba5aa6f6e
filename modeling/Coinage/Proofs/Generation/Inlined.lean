import Coinage.Chance.Twister
import Coinage.Proofs.Generation.Follows
import Coinage.Proofs.Rulebook.Inlining
import Mathlib

/-!
# Inlined trees make the same words

A tree and the tree in which the names are replaced by their rules go through the same draws, texts
and failures. The two runs are at different depths: an inlined tree never goes deeper, so it stays
in step as long as the other run is not cut off.
-/

namespace Coinage

variable {ρ : Type}

namespace Setting

variable [Draws ρ] {s : Setting} {texts : Table Name (List Char)} {inl : Tree → Tree}

/-- An inlined tree stays in step with the linked tree in any room that is not less. -/
theorem expandWithin_inlined (hb : Rulebook.build (Definition.ofTexts texts) = .ok s.book)
    (hi : Inlining (linkedTreeOf texts s.book) inl) {room room' : Nat} (hle : room ≤ room')
    (u : Tree) :
    Follows (s.expandWithin room (u.link s.book.slotOf) : Act ρ Int)
      (s.expandWithin room' (inl (u.link s.book.slotOf))) := by
  have hres := Rulebook.resolves_of_build hb
  induction room generalizing room' u with
  | zero =>
    rw [expandWithin_zero]
    exact .of_tooDeep _ _
  | succ room ih =>
    obtain ⟨room', rfl⟩ := Nat.exists_eq_add_of_le' (Nat.lt_of_lt_of_le room.succ_pos hle)
    have hchild (t : Tree) : Follows (s.expandWithin room (t.link s.book.slotOf) : Act ρ Int)
        (s.expandWithin room' (inl (t.link s.book.slotOf))) := ih (Nat.le_of_succ_le_succ hle) t
    cases u with
    | particle v b =>
      rw [Tree.link, hi.particle, expandWithin_particle, expandWithin_particle]
      exact .refl _
    | reference name b slot =>
      rw [Tree.link, expandWithin_reference]
      cases ht : treeOf texts name with
      | none =>
        rw [hi.undefined b _ (by simp [linkedTreeOf, ht]), expandWithin_reference,
          rule_of_undefined hres ht]
        exact .refl _
      | some t =>
        obtain ⟨source, p, hp, rfl⟩ := exists_compile_of_treeOf ht
        obtain ⟨cs, hroot, -⟩ := Pattern.root_eq_sequence hp
        have hrule : linkedTreeOf texts s.book name =
            some (.sequence (cs.map (Tree.link s.book.slotOf)) ⟨1, 1⟩) := by
          simp [linkedTreeOf, ht, hroot]
        -- the root of the rule is one level more for the linked tree only
        have hroom := ih (Nat.le_trans (Nat.le_of_succ_le_succ hle) room'.le_succ) p.root
        rw [hroot, Tree.link_sequence, hi.sequence, expandWithin_sequence,
          Act.repeated_once] at hroom
        rw [rule_of_defined hres ht, pure_bind, hi.defined b _ hrule, expandWithin_sequence,
          hroot, Tree.link_sequence]
        exact hroom.repeated b
    | choice ts b =>
      rw [Tree.link_choice, hi.choice]
      cases ts with
      | nil => exact .refl _
      | cons t ts =>
        simp only [List.map_cons, expandWithin_choice, Act.pick_map_bind]
        exact ((Follows.refl _).bind hchild).repeated b
    | sequence ts b =>
      rw [Tree.link_sequence, hi.sequence]
      simp only [expandWithin_sequence, inOrder_map]
      exact (Follows.stepwise.inOrder (fun t _ => hchild t) 0).repeated b
    | stray b =>
      rw [Tree.link, hi.stray]
      exact .refl _

/-- Named productions are macros: for an accepted table of texts the names can be replaced by their
rules, and then expanding the inlined tree gives the same result or failure, the same text and the
same draws as expanding the linked tree, unless that one is cut off for its depth. -/
theorem expand_inlined (hb : Rulebook.build (Definition.ofTexts texts) = .ok s.book) (t : Tree) :
    Inlining (linkedTreeOf texts s.book)
      (Tree.inlineWithin (linkedTreeOf texts s.book) (texts.length + 1)) ∧
    ∀ inl, Inlining (linkedTreeOf texts s.book) inl → ∀ r : Run ρ,
      (∀ level, (∀ budget r', s.expand (t.link s.book.slotOf) level r ≠
          .error (.tooDeep budget) r') →
        s.expand (inl (t.link s.book.slotOf)) level r = s.expand (t.link s.book.slotOf) level r) ∧
      ((∀ budget written r', s.word (t.link s.book.slotOf) r ≠
          .error ⟨.tooDeep budget, written⟩ r') →
        s.word (inl (t.link s.book.slotOf)) r = s.word (t.link s.book.slotOf) r) := by
  obtain ⟨rank, hle, hr⟩ := Rulebook.exists_linked_rank_of_build hb
  exact ⟨Tree.inlining_inlineWithin hle hr, fun inl hi r =>
    same_of_follows (fun level => expandWithin_inlined hb hi (Nat.le_refl (s.room level)) t) r⟩

/-- A production that is run by its name and with its rule in place. -/
theorem expand_inlined_doubled :
    let s : Setting := ⟨7, ⟨[['v']], [.sequence [.particle ['e'] ⟨2, 2⟩] .once]⟩, 5, none⟩
    let r : Run Twister := ⟨.ofSeed 7, #['x']⟩
    let texts : Table Name (List Char) := [(['v'], "e\x7b2,2\x7d".toList)]
    let t : Tree := .sequence [.particle ['a'] .once, .reference ['v'] .once none] .once
    let u : Tree := .sequence [.particle ['a'] .once, .sequence [.particle ['e'] ⟨2, 2⟩] .once] .once
    Rulebook.build (Definition.ofTexts texts) = .ok s.book ∧
      Tree.inlineWithin (linkedTreeOf texts s.book) 2 (t.link s.book.slotOf) = u ∧
      s.expand (t.link s.book.slotOf) 0 r = .ok 3 { r with text := #['x', 'a', 'e', 'e'] } ∧
      s.expand u 0 r = s.expand (t.link s.book.slotOf) 0 r := by
  intro s r texts t u
  have hb : Rulebook.build (Definition.ofTexts texts) = .ok s.book := by cbv
  have hu : Tree.inlineWithin (linkedTreeOf texts s.book) 2 (t.link s.book.slotOf) = u := by cbv
  have hrun : s.expand (t.link s.book.slotOf) 0 r =
      .ok 3 { r with text := #['x', 'a', 'e', 'e'] } := rfl
  obtain ⟨hi, h⟩ := expand_inlined (ρ := Twister) hb t
  have hsame := (h _ hi r).1 0 fun budget r' he => by cases hrun.symm.trans he
  refine ⟨hb, hu, hrun, ?_⟩
  rw [← hu]
  exact hsame

end Setting

end Coinage
