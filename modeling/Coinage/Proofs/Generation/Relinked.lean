import Coinage.Chance.Twister
import Coinage.Proofs.Generation.Acts
import Coinage.Proofs.Rulebook.Acceptance
import Coinage.Proofs.Rulebook.Reach
import Mathlib

/-!
# Slots leave no trace

Rules are found by the slots of their names, and slots depend on the order of a table and on all of
its entries. What is made from a tree depends on neither: it is told by the trees of the names that
the tree reaches.
-/

namespace Coinage

variable {ρ : Type}

namespace Setting

def withBook (s : Setting) (b : Rulebook) : Setting := { s with book := b }

@[simp] theorem book_withBook (s : Setting) (b : Rulebook) : (s.withBook b).book = b := rfl
@[simp] theorem budget_withBook (s : Setting) (b : Rulebook) :
    (s.withBook b).budget = s.budget := rfl
@[simp] theorem room_withBook (s : Setting) (b : Rulebook) (level : Int) :
    (s.withBook b).room level = s.room level := rfl

variable [Draws ρ] {rules rules' : Name → Option Tree} {b b' : Rulebook}

/-- A tree is expanded in the same way with two rulebooks in which all names that it reaches have
the same trees, each linked in its own way. -/
theorem expandWithin_withBook (hb : b.Resolves rules) (hb' : b'.Resolves rules') (s : Setting)
    (room : Nat) {t : Tree} (h : ∀ name, ReachesName rules t name → rules' name = rules name) :
    ((s.withBook b').expandWithin room (t.link b'.slotOf) : Act ρ Int) =
      (s.withBook b).expandWithin room (t.link b.slotOf) := by
  -- on the room: a reference goes on with its rule, which is no part of the tree
  induction room generalizing t with
  | zero => rfl
  | succ room ih =>
    have hchild {u : Tree} (hu : Reaches rules t u) :
        ((s.withBook b').expandWithin room (u.link b'.slotOf) : Act ρ Int) =
          (s.withBook b).expandWithin room (u.link b.slotOf) :=
      ih fun name hn => h name (hu.reachesName hn)
    cases t with
    | particle v c => rfl
    | reference name c slot =>
      have hname : rules' name = rules name := h name .reference
      simp only [Tree.link, expandWithin_reference]
      cases hr : rules name with
      | none =>
        have hrule : ((s.withBook b).rule name (b.slotOf name) : Act ρ Tree) =
          throw (.unknown name) := rule_of_undefined hb hr
        have hrule' : ((s.withBook b').rule name (b'.slotOf name) : Act ρ Tree) =
          throw (.unknown name) := rule_of_undefined hb' (hname.trans hr)
        rw [hrule, hrule']
        rfl
      | some u =>
        have hrule : ((s.withBook b).rule name (b.slotOf name) : Act ρ Tree) =
          pure (u.link b.slotOf) := rule_of_defined hb hr
        have hrule' : ((s.withBook b').rule name (b'.slotOf name) : Act ρ Tree) =
          pure (u.link b'.slotOf) := rule_of_defined hb' (hname.trans hr)
        rw [hrule, hrule', pure_bind, pure_bind, hchild (.rule .refl hr)]
    | choice ts c =>
      cases ts with
      | nil => rfl
      | cons u ts =>
        simp [Act.pick_bind_congr fun v hv => hchild (.of_mem_choice hv)]
    | sequence ts c =>
      simp [inOrder_congr fun v hv => hchild (.of_mem_sequence hv)]
    | stray c => rfl

/-- The settings make the same words from the tree, or fail alike, one at a time and in batches, and
leave the same text and draws behind, whatever has been made before. -/
def SameWords (ρ : Type) [Draws ρ] (s s' : Setting) (t : Tree) : Prop :=
  ∀ r : Run ρ, s'.generate t r = s.generate t r ∧
    ∀ count, s'.generateBatch t count r = s.generateBatch t count r

/-- What a setting makes from a tree is told by the trees of the names that the tree reaches. -/
theorem sameWords_withBook (hb : b.Resolves rules) (hb' : b'.Resolves rules') (s : Setting)
    {t : Tree} (h : ∀ name, ReachesName rules t name → rules' name = rules name) :
    SameWords ρ (s.withBook b) (s.withBook b') t := by
  have hexpand : ((s.withBook b').expand (t.link b'.slotOf) 0 : Act ρ Int) =
      (s.withBook b).expand (t.link b.slotOf) 0 := expandWithin_withBook hb hb' s _ h
  intro r
  cases hp : t.isProper with
  | false => simp [generate, generateBatch, Tree.link?, hp]
  | true => simp [generate, generateBatch, Tree.link?, hp, word_congr hexpand, words_congr hexpand]

/-- The numbering of slots is invisible. Two settings that differ in their rulebooks only, made from
two accepted tables that give the same tree, or none, to every name that a tree reaches, make the
same words from it. Two orders of one table are accepted or refused alike, and then make the same
words from every tree. -/
theorem slot_numbering_invisible (s : Setting) :
    (∀ (ds ds' : Table Name Definition) (b b' : Rulebook) (t : Tree),
      Rulebook.build ds = .ok b → Rulebook.build ds' = .ok b' →
      (∀ name, ReachesName (definedTree ds) t name → definedTree ds' name = definedTree ds name) →
      SameWords ρ (s.withBook b) (s.withBook b') t) ∧
    ∀ ds ds' : Table Name Definition, ds.keys.Nodup → ds.Perm ds' →
      ((∃ b, Rulebook.build ds' = .ok b) ↔ ∃ b, Rulebook.build ds = .ok b) ∧
      ∀ b b' t, Rulebook.build ds = .ok b → Rulebook.build ds' = .ok b' →
        SameWords ρ (s.withBook b) (s.withBook b') t := by
  have hagree {ds ds' : Table Name Definition} {b b' : Rulebook} {t : Tree}
      (hb : Rulebook.build ds = .ok b) (hb' : Rulebook.build ds' = .ok b') :=
    sameWords_withBook (ρ := ρ) (t := t) (Rulebook.resolves_of_definitions hb)
      (Rulebook.resolves_of_definitions hb') s
  refine ⟨fun ds ds' b b' t hb hb' => hagree hb hb', fun ds ds' hn hperm => ⟨?_, ?_⟩⟩
  · exact Rulebook.exists_build_iff_of_perm hn hperm
  · intro b b' t hb hb'
    exact hagree hb hb' fun name _ => congrFun (Rulebook.definedTree_of_perm hn hperm) name

/-- A production that stands first in one table and, written in another way, second in the other,
behind a production that only this table has. -/
theorem slot_numbering_invisible_shifted :
    let s : Setting := ⟨7, .empty, 5, none⟩
    let r : Run Twister := ⟨.ofSeed 7, #['x']⟩
    let ds : Table Name Definition := [(['v'], .text "e\x7b2,2\x7d".toList),
      (['w'], .text ['w'])]
    let ds' : Table Name Definition := [(['u'], .text "$w".toList),
      (['v'], .text " e\x7b02,2\x7d".toList)]
    let rule : Tree := .sequence [.particle ['e'] ⟨2, 2⟩] .once
    let b : Rulebook := ⟨[['v'], ['w']], [rule, .sequence [.particle ['w'] .once] .once]⟩
    let b' : Rulebook := ⟨[['u'], ['v']],
      [.sequence [.reference ['w'] .once none] .once, rule]⟩
    let t : Tree := .sequence [.particle ['a'] .once, .reference ['v'] .once none] .once
    Rulebook.build ds = .ok b ∧ Rulebook.build ds' = .ok b' ∧
      (s.withBook b).generate t r = .ok ['a', 'e', 'e'] { r with text := #['x', 'a', 'e', 'e'] } ∧
      (s.withBook b').generate t r = (s.withBook b).generate t r ∧
      ∃ c, Rulebook.build ds.reverse = .ok c ∧
        (s.withBook c).generate t r = (s.withBook b).generate t r := by
  intro s r ds ds' rule b b' t
  have hb : Rulebook.build ds = .ok b := by cbv
  have hb' : Rulebook.build ds' = .ok b' := by cbv
  have hg : (s.withBook b).generate t r =
      .ok ['a', 'e', 'e'] { r with text := #['x', 'a', 'e', 'e'] } := rfl
  have hv : definedTree ds ['v'] = some rule := by cbv
  have hv' : definedTree ds' ['v'] = some rule := by cbv
  have hagree : ∀ name, ReachesName (definedTree ds) t name →
      definedTree ds' name = definedTree ds name := by
    intro name hn
    have hname : name = ['v'] := by
      refine ReachesName.of_closed (N := (· = ['v'])) (fun n hm => ?_) (fun n u m hn hu hm => ?_) hn
      · simpa [t, Tree.references, Tree.referencesAll] using Tree.mem_references_iff.mpr hm
      · rw [hn, hv, Option.some.injEq] at hu
        subst hu
        simpa [rule, Tree.references, Tree.referencesAll] using Tree.mem_references_iff.mpr hm
    rw [hname, hv, hv']
  obtain ⟨hsame, hperm⟩ := slot_numbering_invisible (ρ := Twister) s
  obtain ⟨haccepted, hwords⟩ := hperm ds ds.reverse (by decide) ds.reverse_perm.symm
  obtain ⟨c, hc⟩ := haccepted.mpr ⟨b, hb⟩
  exact ⟨hb, hb', hg, (hsame ds ds' b b' t hb hb' hagree r).1, c, hc, (hwords b c t hb hc r).1⟩

end Setting

end Coinage
