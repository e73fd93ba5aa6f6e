import Coinage.Chance.Twister
import Coinage.Proofs.Generation.Frame
import Mathlib

/-!
# Expansions tell the length of what they write

The result of an expansion is a number of texts. Particles of patterns are single characters, so for
them it is the number of characters that are added to the text, at every node and through every
repetition. What is added does not depend on the text that was there.
-/

namespace Coinage

variable {ρ ε α : Type}

/-- If the action succeeds, its result is the number of characters that it adds to the text. -/
def Measures (act : Act ρ Int) : Prop :=
  ∀ r k r', act r = .ok k r' → (r'.text.size : Int) = r.text.size + k

namespace Measures

theorem emit (c : Char) : Measures (Act.emit [c] : Act ρ Int) := by
  intro r k r' h
  cases h
  simp

theorem of_throw (e : Failure) : Measures (throw e : Act ρ Int) := by
  intro r k r' h
  cases h

/-- What comes first may draw, but must not write. -/
theorem bind {x : Act ρ α} {f : α → Act ρ Int}
    (hx : ∀ r a r', x r = .ok a r' → r'.text = r.text ∧ Measures (f a)) : Measures (x >>= f) := by
  intro r k r' h
  obtain ⟨a, r₁, hxa, hfa⟩ := stateM_bind_eq_ok.mp h
  obtain ⟨htext, hf⟩ := hx r a r₁ hxa
  rw [← htext]
  exact hf r₁ k r' hfa

theorem inOrder {f : α → Act ρ Int} {as : List α} (h : ∀ a ∈ as, Measures (f a)) :
    Measures (inOrder f as 0) := by
  induction as with
  | nil =>
    intro r k r' hr
    cases hr
    simp
  | cons a as ih =>
    obtain ⟨hhead, htail⟩ := List.forall_mem_cons.mp h
    intro r k r' hr
    rw [inOrder_cons] at hr
    obtain ⟨m, r₁, hm, hrest⟩ := stateM_bind_eq_ok.mp hr
    -- the total of the rest begins with the length of the first part
    rw [inOrder_total] at hrest
    obtain ⟨n, r₂, hn, hsum⟩ := stateM_bind_eq_ok.mp hrest
    cases hsum
    have hfirst := hhead r m r₁ hm
    have hothers := ih htail r₁ n _ hn
    omega

variable [Draws ρ]

theorem repeated {act : Act ρ Int} {b : Bounds} (hb : b.Valid) (h : Measures act) :
    Measures (Act.repeated b act) := by
  refine bind fun r n r' hn => ⟨(Act.count_eq_ok hb.le hn).2.2, ?_⟩
  rw [times_eq_inOrder]
  exact inOrder fun _ _ => h

theorem pick {f : Tree → Act ρ Int} {t : Tree} {ts : List Tree}
    (h : ∀ u ∈ t :: ts, Measures (f u)) : Measures (Act.pick t ts >>= f) := by
  refine bind fun r u r' hu => ?_
  obtain ⟨hmem, htext⟩ := Act.pick_eq_ok hu
  exact ⟨htext, h u hmem⟩

end Measures

/-- The result that gives the answer and leaves the run. -/
def answered : Except ε α → Run ρ → EStateM.Result ε (Run ρ) α
  | .ok a, r => .ok a r
  | .error e, r => .error e r

namespace Setting

variable [Draws ρ] {s : Setting} {texts : Table Name (List Char)}

theorem expandWithin_measures (hb : Rulebook.build (Definition.ofTexts texts) = .ok s.book)
    (room : Nat) {u : Tree} (hu : u.Shaped) :
    Measures (s.expandWithin room (u.link s.book.slotOf) : Act ρ Int) := by
  refine expandWithin_induct (motive := fun _ act => Measures act)
    hb ?tooDeep ?particle ?undefined ?defined ?choice ?sequence room hu
  case tooDeep => exact fun _ => .of_throw _
  case particle => exact fun c b hv => (Measures.emit c).repeated hv
  case undefined => exact fun name b slot hv _ => (Measures.of_throw _).repeated hv
  case defined => exact fun name b slot t act hv _ ih => ih.repeated hv
  case choice => exact fun t ts b f hv ih => (Measures.pick ih).repeated hv
  case sequence => exact fun ts b f hv ih => (Measures.inOrder ih).repeated hv

/-- Expansions add as many characters as they tell. Wherever a node stands in the linked tree of a
pattern, at whatever level it is expanded and whatever the draws are, one answer, one added text and
one rest of the draws go with the expansion: with any text in front it gives this answer and leaves
the text with the added one behind it. If the answer is a number, that is the length of what is
added. -/
theorem expansions_tell_their_length
    (hb : Rulebook.build (Definition.ofTexts texts) = .ok s.book) {source : List Char} {p : Pattern}
    (hp : Pattern.compile source = .ok p) {v : Tree} (hv : (p.root.link s.book.slotOf).HasNode v)
    (level : Int) (draws : ρ) :
    ∃ (answer : Except Failure Int) (added : Array Char) (draws' : ρ),
      (∀ text, s.expand v level ⟨draws, text⟩ = answered answer ⟨draws', text ++ added⟩) ∧
      ∀ n, answer = .ok n → n = added.size := by
  obtain ⟨u, hu, rfl⟩ := Tree.hasNode_link_iff.mp hv
  have hframed : Framed (s.expand (u.link s.book.slotOf) level : Act ρ Int) :=
    s.expandWithin_framed _ _
  have hmeasures : Measures (s.expand (u.link s.book.slotOf) level : Act ρ Int) :=
    expandWithin_measures hb _ ((Pattern.shaped_root hp).of_hasNode hu)
  cases hstart : s.expand (u.link s.book.slotOf) level (.start draws) with
  | ok n r =>
    refine ⟨.ok n, r.text, r.draws, fun text => ?_, fun m hm => ?_⟩
    · rw [hframed.eq_resultBehind, hstart]
      rfl
    · cases hm
      have hsize := hmeasures _ n r hstart
      simpa [Run.start] using hsize.symm
  | error e r =>
    refine ⟨.error e, r.text, r.draws, fun text => ?_, fun m hm => ?_⟩
    · rw [hframed.eq_resultBehind, hstart]
      rfl
    · cases hm

/-- A group below the root of a pattern, which is run twice and calls a rule each time. -/
theorem expansions_tell_their_length_twice :
    let s : Setting := ⟨7, ⟨[['v']], [.sequence [.particle ['e'] ⟨2, 2⟩] .once]⟩, 5, none⟩
    let texts : Table Name (List Char) := [(['v'], "e\x7b2,2\x7d".toList)]
    let u : Tree := .sequence [.particle ['a'] .once, .reference ['v'] .once none] ⟨2, 2⟩
    let p : Pattern := ⟨"b(a$v)\x7b2,2\x7d".toList, .sequence [.particle ['b'] .once, u] .once⟩
    let v := u.link s.book.slotOf
    let d := Twister.ofSeed 7
    Rulebook.build (Definition.ofTexts texts) = .ok s.book ∧
      Pattern.compile p.source = .ok p ∧ (p.root.link s.book.slotOf).HasNode v ∧
      s.expand v 1 ⟨d, #['x']⟩ = .ok 6 ⟨d, #['x', 'a', 'e', 'e', 'a', 'e', 'e']⟩ ∧
      ∀ text, s.expand v 1 ⟨d, text⟩ = .ok 6 ⟨d, text ++ #['a', 'e', 'e', 'a', 'e', 'e']⟩ := by
  intro s texts u p v d
  have hb : Rulebook.build (Definition.ofTexts texts) = .ok s.book := by cbv
  have hp : Pattern.compile p.source = .ok p := by cbv
  have hv : (p.root.link s.book.slotOf).HasNode v :=
    Tree.hasNode_link_iff.mpr ⟨u, .sequence .self (by simp), rfl⟩
  have hrun : s.expand v 1 ⟨d, #[]⟩ = .ok 6 ⟨d, #['a', 'e', 'e', 'a', 'e', 'e']⟩ := rfl
  obtain ⟨answer, added, draws', hall, hlength⟩ := expansions_tell_their_length hb hp hv 1 d
  have hadded := hrun.symm.trans (hall #[])
  cases answer with
  | error e => simp only [answered, reduceCtorEq] at hadded
  | ok n =>
    obtain ⟨rfl, hrest⟩ := EStateM.Result.ok.inj hadded
    obtain ⟨rfl, htext⟩ := Run.mk.inj hrest
    rw [Array.empty_append] at htext
    subst htext
    exact ⟨hb, hp, hv, hall #['x'], hall⟩

end Setting

end Coinage
