import Coinage.Chance.Twister
import Coinage.Proofs.Generation.Acts
import Coinage.Proofs.Rulebook.Slots
import Mathlib

/-!
# References are followed by name

What a rulebook finds in slots could as well be looked up by name: at every repetition a reference
goes on with the tree of the text that the table has under its name. So it is in every run, and no
reference goes on with any other tree.
-/

namespace Coinage

variable {ρ : Type}

namespace Setting

variable [Draws ρ]

/-- The expansion of a tree whose references are not linked: at every repetition a reference goes on
with the tree of its name. -/
def expandByName (s : Setting) (rules : Name → Option Tree) : (room : Nat) → Tree → Act ρ Int
  | 0, _ => throw (.tooDeep s.budget)
  | room + 1, t =>
    match t with
    | .particle v b => Act.repeated b (Act.emit v)
    | .reference name b _ => Act.repeated b <|
      match rules name with
      | none => throw (.unknown name)
      | some u => expandByName s rules room u
    | .choice [] _ => throw .emptyChoice
    | .choice (t :: ts) b => Act.repeated b (do expandByName s rules room (← Act.pick t ts))
    | .sequence ts b => Act.repeated b (inOrder (expandByName s rules room) ts 0)
    | .stray _ => throw .notANode

/-- Makes one word from a tree whose references are not linked. -/
def generateByName (s : Setting) (rules : Name → Option Tree) (t : Tree) :
    EStateM Abort (Run ρ) (List Char) := fun r =>
  match s.expandByName rules (s.room 0) t r with
  | .ok _ r' => .ok (r'.since r.text.size) r'
  | .error e r' => .error ⟨e, r'.since r.text.size⟩ r'

variable {s : Setting} {rules : Name → Option Tree}

theorem expandWithin_eq_byName (h : s.book.Resolves rules) (room : Nat) (t : Tree) :
    (s.expandWithin room (t.link s.book.slotOf) : Act ρ Int) = s.expandByName rules room t := by
  -- on the room: a reference goes on with its rule, which is no part of the tree
  induction room generalizing t with
  | zero => rfl
  | succ room ih =>
    cases t with
    | particle v b => rfl
    | reference name b slot =>
      rw [Tree.link, expandWithin_reference, expandByName]
      cases hu : rules name with
      | none =>
        rw [rule_of_undefined h hu]
        rfl
      | some u => rw [rule_of_defined h hu, pure_bind, ih u]
    | choice ts b =>
      cases ts with
      | nil => rfl
      | cons u ts =>
        simp [expandByName, ih]
    | sequence ts b =>
      simp [expandByName, ih]
    | stray b => rfl

theorem generate_eq_byName (h : s.book.Resolves rules) {t : Tree} (ht : t.isProper = true) :
    (s.generate t : EStateM Abort (Run ρ) (List Char)) = s.generateByName rules t := by
  have hlink : t.link? s.book.slotOf = some (t.link s.book.slotOf) := if_pos ht
  funext r
  cases hr : s.expandByName rules (s.room 0) t r <;>
    simp only [generate, hlink, word, expand, expandWithin_eq_byName h, generateByName, hr]

/-- The resolution of names is exact. A table of texts with distinct names is accepted exactly if
its names are identifiers, its texts are patterns and no name leads back to itself. Then the names
are numbered in their order, the rule of each is the root of its own text but for the slots, and
every reference in a rule or in a linked tree carries the slot of its name, or none if the table
does not have the name. So every word is made as if references were followed by name: at each
repetition with the root of the text that the table has for the name, and with nothing else. -/
theorem name_resolution_is_exact {texts : Table Name (List Char)} (hn : texts.keys.Nodup) :
    ((∃ b, Rulebook.build (Definition.ofTexts texts) = .ok b) ↔
      (∀ e ∈ texts, isIdentifier e.1 = true ∧ ∃ p, Pattern.compile e.2 = .ok p) ∧
        ∀ a, ¬Relation.TransGen (Depends (treeOf texts)) a a) ∧
    ∀ s : Setting, Rulebook.build (Definition.ofTexts texts) = .ok s.book →
      s.book.Numbers texts ∧
      (∀ rule ∈ s.book.rules, rule.Resolved s.book.slotOf) ∧
      (∀ t : Tree, (t.link s.book.slotOf).Resolved s.book.slotOf) ∧
      ∀ t : Tree, t.isProper = true →
        (s.generate t : EStateM Abort (Run ρ) (List Char)) = s.generateByName (treeOf texts) t := by
  refine ⟨Rulebook.exists_build_ofTexts_iff hn, fun s hb => ⟨?_, ?_, ?_, ?_⟩⟩
  · exact Rulebook.numbers_of_build hn hb
  · exact fun rule hrule => Rulebook.resolved_of_mem_rules hb hrule
  · exact Tree.resolved_link s.book.slotOf
  · exact fun t ht => generate_eq_byName (Rulebook.resolves_of_build hb) ht

/-- A rule that refers to a later one in front of it and, within a group, to none. -/
theorem name_resolution_is_exact_forward :
    let texts : Table Name (List Char) := [(['v'], "$w[x$u]".toList), (['w'], ['y'])]
    let s : Setting := ⟨7, ⟨[['v'], ['w']],
      [.sequence [.reference ['w'] .once (some 1),
        .choice [.particle ['x'] .once, .reference ['u'] .once none] .once] .once,
        .sequence [.particle ['y'] .once] .once]⟩, 5, none⟩
    let t : Tree := .sequence [.reference ['w'] .once none, .reference ['v'] .once none] .once
    texts.keys.Nodup ∧ Rulebook.build (Definition.ofTexts texts) = .ok s.book ∧
      s.book.Numbers texts ∧ s.book.slotOf ['w'] = some 1 ∧ s.book.slotOf ['u'] = none ∧
      t.isProper = true ∧
      ∀ r : Run Twister, s.generate t r = s.generateByName (treeOf texts) t r := by
  intro texts s t
  have hn : texts.keys.Nodup := by decide
  have hb : Rulebook.build (Definition.ofTexts texts) = .ok s.book := by cbv
  have ht : t.isProper = true := by decide
  obtain ⟨hnumbers, -, -, hsame⟩ := (name_resolution_is_exact (ρ := Twister) hn).2 s hb
  exact ⟨hn, hb, hnumbers, (hnumbers.entry (i := 1) rfl).1, hnumbers.unknown.mpr rfl, ht,
    fun r => congrFun (hsame t ht) r⟩

end Setting

end Coinage
