import Coinage.Chance.Twister
import Coinage.Proofs.Generation.Acts
import Coinage.Proofs.Rulebook.Reach
import Mathlib

/-!
# Patterns do not go wrong

Making a word from a pattern fails for three reasons only: a name without a rule, the budget of
levels, and bounds too wide to draw from. What rules out the others is known before any word is
made: the shape of the trees that patterns have, and the slots that names resolve to.
-/

namespace Coinage

variable {ρ α : Type}

/-- Every failure of the action is one of the given ones. -/
def FailsOnly (act : Act ρ α) (E : Failure → Prop) : Prop :=
  ∀ r e r', act r = .error e r' → E e

namespace FailsOnly

variable {act : Act ρ Int} {E E' : Failure → Prop}

theorem mono (h : FailsOnly act E) (hE : ∀ e, E e → E' e) : FailsOnly act E' := by
  intro r e r' ha
  exact hE e (h r e r' ha)

theorem of_throw {e : Failure} (he : E e) : FailsOnly (throw e : Act ρ α) E := by
  intro r e' r' ha
  cases ha
  exact he

theorem emit (v : List Char) : FailsOnly (Act.emit v : Act ρ Int) E := by
  intro r e r' ha
  cases ha

theorem bind {x : Act ρ α} {f : α → Act ρ Int} (hx : FailsOnly x E)
    (hf : ∀ r a r', x r = .ok a r' → FailsOnly (f a) E) : FailsOnly (x >>= f) E := by
  intro r e r' ha
  rcases stateM_bind_eq_error.mp ha with hxe | ⟨a, r₁, hxa, hfe⟩
  · exact hx r e r' hxe
  · exact hf r a r₁ hxa r₁ e r' hfe

theorem inOrder {β : Type} {f : β → Act ρ Int} {as : List β} (h : ∀ a ∈ as, FailsOnly (f a) E)
    (total : Int) : FailsOnly (inOrder f as total) E := by
  refine inOrder_rel (R := fun act _ => FailsOnly act E) ?_ ?_ (g := f) h total
  · intro k r e r' ha
    cases ha
  · exact fun hx hf => hx.bind fun _ k _ _ => hf k

theorem times (h : FailsOnly act E) (n : Nat) (total : Int) : FailsOnly (times act n total) E := by
  rw [times_eq_inOrder]
  exact inOrder (fun _ _ => h) total

variable [Draws ρ]

/-- Repeating adds only the failure to draw a number of repetitions. -/
theorem repeated {b : Bounds} (hb : b.lo ≤ b.hi) (hE : b.TooWide → E .tooWide)
    (h : FailsOnly act E) : FailsOnly (Act.repeated b act) E := by
  refine bind ?_ fun _ n _ _ => h.times n.toNat 0
  intro r e r' ha
  obtain ⟨rfl, hwide⟩ := Act.count_eq_error hb ha
  exact hE hwide

/-- Choosing among children adds no failure, as far as the draws are lawful. -/
theorem pick [LawfulDraws ρ] {f : Tree → Act ρ Int} {t : Tree} {ts : List Tree}
    (h : ∀ u ∈ t :: ts, FailsOnly (f u) E) : FailsOnly (Act.pick t ts >>= f) E := by
  refine bind ?_ fun _ u _ hu => h u (Act.pick_eq_ok hu).1
  intro r e r' ha
  exact absurd ha (Act.pick_ne_error t ts r r' e)

end FailsOnly

/-- The failures that a tree can run into, where `rules` gives the trees of names: it reaches a name
that has no tree, it is deeper than the budget, or it reaches bounds that are too wide. -/
inductive Excused (rules : Name → Option Tree) (budget : Int) (t : Tree) : Failure → Prop
  | unknown {name : Name} : ReachesName rules t name → rules name = none →
      Excused rules budget t (.unknown name)
  | tooDeep : Excused rules budget t (.tooDeep budget)
  | tooWide {u : Tree} : Reaches rules t u → u.bounds.TooWide → Excused rules budget t .tooWide

theorem Excused.of_reaches {rules : Name → Option Tree} {budget : Int} {t u : Tree}
    {e : Failure} (he : Excused rules budget u e) (h : Reaches rules t u) :
    Excused rules budget t e := by
  cases he with
  | unknown hn hr => exact .unknown (h.reachesName hn) hr
  | tooDeep => exact .tooDeep
  | tooWide hv hw => exact .tooWide (h.trans hv) hw

/-- Repeating a node fails only as the node may. -/
theorem FailsOnly.repeated_excused [Draws ρ] {rules : Name → Option Tree} {budget : Int} {t : Tree}
    {b : Bounds} {act : Act ρ Int} (ht : t.bounds = b) (hb : b.Valid)
    (h : FailsOnly act (Excused rules budget t)) :
    FailsOnly (Act.repeated b act) (Excused rules budget t) :=
  h.repeated hb.le fun hw => .tooWide .refl (ht ▸ hw)

namespace Setting

variable [Draws ρ] {s : Setting} {texts : Table Name (List Char)}

/-- Expanding a tree in shape fails only as it may, whatever the room is. -/
theorem expandWithin_failsOnly [LawfulDraws ρ]
    (hb : Rulebook.build (Definition.ofTexts texts) = .ok s.book) (room : Nat) {u : Tree}
    (hu : u.Shaped) :
    FailsOnly (s.expandWithin room (u.link s.book.slotOf) : Act ρ Int)
      (Excused (treeOf texts) s.budget u) := by
  refine expandWithin_induct
    (motive := fun u act => FailsOnly act (Excused (treeOf texts) s.budget u))
    hb ?tooDeep ?particle ?undefined ?defined ?choice ?sequence room hu
  case tooDeep => exact fun u => .of_throw .tooDeep
  case particle => exact fun c b hv => (FailsOnly.emit _).repeated_excused rfl hv
  case undefined =>
    intro name b slot hv ht
    exact (FailsOnly.of_throw (.unknown .reference ht)).repeated_excused rfl hv
  case defined =>
    intro name b slot t act hv ht ih
    have hreach : Reaches (treeOf texts) (.reference name b slot) t := .rule .refl ht
    exact (ih.mono fun e he => he.of_reaches hreach).repeated_excused rfl hv
  case choice =>
    intro t ts b f hv ih
    refine (FailsOnly.pick fun u hu => ?_).repeated_excused rfl hv
    exact (ih u hu).mono fun e he => he.of_reaches (.of_mem_choice hu)
  case sequence =>
    intro ts b f hv ih
    refine (FailsOnly.inOrder (fun u hu => ?_) 0).repeated_excused rfl hv
    exact (ih u hu).mono fun e he => he.of_reaches (.of_mem_sequence hu)

/-- Making a word from a pattern fails only as the pattern may. -/
theorem generate_excused [LawfulDraws ρ]
    (hb : Rulebook.build (Definition.ofTexts texts) = .ok s.book) {source : List Char} {p : Pattern}
    (hp : Pattern.compile source = .ok p) {r r' : Run ρ} {a : Abort}
    (h : s.generate p.root r = .error a r') :
    Excused (treeOf texts) s.budget p.root a.failure := by
  have hroot := Pattern.shaped_root hp
  rw [generate_eq_word hroot] at h
  exact expandWithin_failsOnly hb _ hroot r a.failure r' (word_eq_error.mp h).1

/-- Patterns do not go wrong. With lawful draws, whatever the budget, the level limit and the text
written before are, making a word gives a text or fails in one of three ways: with a name that the
pattern reaches and the table does not have, with the budget, or, if the pattern reaches bounds that
are too wide, with these. So it never fails for an empty choice, for something that is no node, or
for a place without a rule or child, and never for a name where every name within reach is in the
table. -/
theorem patterns_do_not_go_wrong [LawfulDraws ρ]
    (hb : Rulebook.build (Definition.ofTexts texts) = .ok s.book) {source : List Char} {p : Pattern}
    (hp : Pattern.compile source = .ok p) (r : Run ρ) :
    ((∃ w r', s.generate p.root r = .ok w r') ∨
      ∃ e written r', s.generate p.root r = .error ⟨e, written⟩ r' ∧
        ((∃ name, e = .unknown name ∧ ReachesName (treeOf texts) p.root name ∧
            texts.get? name = none) ∨
          e = .tooDeep s.budget ∨
          e = .tooWide ∧ ∃ u, Reaches (treeOf texts) p.root u ∧ u.bounds.TooWide)) ∧
    (∀ a r', s.generate p.root r = .error a r' →
      a.failure ≠ .emptyChoice ∧ a.failure ≠ .notANode ∧ a.failure ≠ .noRule) ∧
    ((∀ name, ReachesName (treeOf texts) p.root name → texts.get? name ≠ none) →
      ∀ name written r', s.generate p.root r ≠ .error ⟨.unknown name, written⟩ r') := by
  have hnone {name : Name} (h : treeOf texts name = none) : texts.get? name = none :=
    Rulebook.get?_eq_none_of_build hb h
  refine ⟨?_, fun a r' h => ?_, fun hall name written r' h => ?_⟩
  · cases hg : s.generate p.root r with
    | ok w r' => exact .inl ⟨w, r', rfl⟩
    | error a r' =>
      obtain ⟨e, written⟩ := a
      refine .inr ⟨e, written, r', rfl, ?_⟩
      cases generate_excused hb hp hg with
      | unknown hn ht => exact .inl ⟨_, rfl, hn, hnone ht⟩
      | tooDeep => exact .inr (.inl rfl)
      | tooWide hu hw => exact .inr (.inr ⟨rfl, _, hu, hw⟩)
  · have he := generate_excused hb hp h
    refine ⟨?_, ?_, ?_⟩ <;>
    · intro hf
      rw [hf] at he
      cases he
  · cases generate_excused hb hp h with
    | unknown hn ht => exact hall name hn (hnone ht)

/-- A pattern that runs into a name without a rule, through the rule of another name and behind a
text that was there before. -/
theorem patterns_do_not_go_wrong_unknown :
    let s : Setting := ⟨7, ⟨[['v']], [.sequence [.particle ['e'] ⟨2, 2⟩,
      .reference ['w'] .once none] .once]⟩, 5, none⟩
    let r : Run Twister := ⟨.ofSeed 7, #['x']⟩
    let texts : Table Name (List Char) := [(['v'], "e\x7b2,2\x7d$w".toList)]
    let t : Tree := .sequence [.particle ['a'] .once, .reference ['v'] .once none] .once
    Rulebook.build (Definition.ofTexts texts) = .ok s.book ∧
      Pattern.compile "a$v".toList = .ok ⟨"a$v".toList, t⟩ ∧
      s.generate t r = .error ⟨.unknown ['w'], ['a', 'e', 'e']⟩
        { r with text := #['x', 'a', 'e', 'e'] } ∧
      ReachesName (treeOf texts) t ['w'] ∧ texts.get? ['w'] = none := by
  intro s r texts t
  have hb : Rulebook.build (Definition.ofTexts texts) = .ok s.book := by cbv
  have hp : Pattern.compile "a$v".toList = .ok ⟨"a$v".toList, t⟩ := by cbv
  have hg : s.generate t r = .error ⟨.unknown ['w'], ['a', 'e', 'e']⟩
      { r with text := #['x', 'a', 'e', 'e'] } := rfl
  refine ⟨hb, hp, hg, ?_⟩
  rcases (patterns_do_not_go_wrong hb hp r).1 with ⟨w, r', h⟩ | ⟨e, written, r', h, hf⟩
  · cases hg.symm.trans h
  · cases hg.symm.trans h
    rcases hf with ⟨name, hname, hreach, hnone⟩ | hdeep | ⟨hwide, -⟩
    · cases hname
      exact ⟨hreach, hnone⟩
    · cases hdeep
    · cases hwide

end Setting

end Coinage
