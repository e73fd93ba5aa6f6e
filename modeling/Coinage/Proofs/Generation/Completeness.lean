import Coinage.Proofs.Chance.Script
import Coinage.Proofs.Generation.Language
import Coinage.Proofs.Generation.Levels
import Coinage.Proofs.Rulebook.Reach
import Mathlib

/-!
# Every word of the language is made

If the draws are free, every word that a pattern stands for can come out. The script of a word is
put together from the scripts of its parts: the draw of a number of repetitions, then for every
repetition the draw of a child or the scripts of all the children, in the order in which they are
used up.
-/

namespace Coinage

variable {α β : Type}

/-- Some numbers at the front of the script make the action give the result and write the word. They
are used up, whatever is written in the script behind them and whatever the text in front is. -/
def Scripted (act : Act Script α) (a : α) (w : List Char) : Prop :=
  ∃ is : List Nat, ∀ rest text, act ⟨⟨is ++ rest⟩, text⟩ = .ok a ⟨⟨rest⟩, text ++ w⟩

namespace Scripted

theorem bind {x : Act Script α} {f : α → Act Script β} {a : α} {b : β} {v w : List Char}
    (hx : Scripted x a v) (hf : Scripted (f a) b w) : Scripted (x >>= f) b (v ++ w) := by
  obtain ⟨is, hx⟩ := hx
  obtain ⟨js, hf⟩ := hf
  refine ⟨is ++ js, fun rest text => ?_⟩
  -- the second action finds its numbers where the first one has left off
  have htext : text ++ (v ++ w) = text ++ v ++ w := by
    apply Array.toList_inj.mp
    simp
  rw [List.append_assoc, htext]
  exact stateM_bind_eq_ok.mpr ⟨a, _, hx (js ++ rest) text, hf rest (text ++ v)⟩

/-- A draw alone writes nothing. -/
theorem of_draw {act : Act Script α} {a : α}
    (h : ∃ is : List Nat, ∀ rest text, act ⟨⟨is ++ rest⟩, text⟩ = .ok a ⟨⟨rest⟩, text⟩) :
    Scripted act a [] := by
  obtain ⟨is, h⟩ := h
  exact ⟨is, fun rest text => by rw [h, Array.appendList_nil]⟩

/-- Every number of repetitions can be drawn from bounds that are not too far apart. -/
theorem count {b : Bounds} (hb : b.hi - b.lo ≤ twoTo 50) {k : Nat} (hk : b.Admits k) :
    Scripted (Act.count b) (k : Int) [] := by
  obtain ⟨is, his⟩ := Bounds.exists_count hb hk.lo_le hk.le_hi
  exact of_draw ⟨is, fun rest text => by simp only [Act.count, his]⟩

/-- Every element can be chosen. -/
theorem pick {t u : Tree} {ts : List Tree} (hu : u ∈ t :: ts) : Scripted (Act.pick t ts) u [] := by
  obtain ⟨i, hi, hget⟩ := List.mem_iff_getElem.mp hu
  refine of_draw ⟨[i], fun rest text => ?_⟩
  have hdraw : Draws.below (ts.length + 1) (⟨i :: rest⟩ : Script) = (i, ⟨rest⟩) :=
    Script.next_cons hi rest
  simp only [Act.pick, List.singleton_append, hdraw, List.getElem?_eq_getElem hi, hget]

end Scripted

/-- For every word of the language some script makes the action write it. -/
def Yields (act : Act Script Int) (L : List Char → Prop) : Prop :=
  ∀ w, L w → ∃ k, Scripted act k w

namespace Yields

variable {act : Act Script Int} {L L' : List Char → Prop}

theorem mono (h : Yields act L) (hL : ∀ w, L' w → L w) : Yields act L' :=
  fun w hw => h w (hL w hw)

theorem of_throw (e : Failure) : Yields (throw e) fun _ => False := fun _ => False.elim

theorem emit (v : List Char) : Yields (Act.emit v) (· = v) := by
  rintro w rfl
  exact ⟨1, [], fun _ _ => rfl⟩

theorem inOrder {f : α → Act Script Int} {L : α → List Char → Prop} {as : List α}
    (h : ∀ a ∈ as, Yields (f a) (L a)) (total : Int) :
    Yields (inOrder f as total) (Round L as) := by
  induction as generalizing total with
  | nil =>
    rintro w ⟨vs, hl, -, rfl⟩
    rw [List.eq_nil_of_length_eq_zero hl]
    exact ⟨total, .of_draw ⟨[], fun _ _ => rfl⟩⟩
  | cons a as ih =>
    rintro w ⟨vs, hl, hvs, rfl⟩
    obtain ⟨hhead, htail⟩ := List.forall_mem_cons.mp h
    obtain ⟨v, vs, rfl⟩ := List.exists_cons_of_length_eq_add_one hl
    rw [List.zip_cons_cons] at hvs
    obtain ⟨hv, hvs⟩ := List.forall_mem_cons.mp hvs
    obtain ⟨k, hfirst⟩ := hhead v hv
    obtain ⟨m, hrest⟩ := ih htail (total + k) vs.flatten ⟨vs, Nat.succ.inj hl, hvs, rfl⟩
    rw [inOrder_cons]
    exact ⟨m, hfirst.bind hrest⟩

theorem repeated {b : Bounds} (hb : b.hi - b.lo ≤ twoTo 50) (h : Yields act L) :
    Yields (Act.repeated b act) (Repeats b L) := by
  rintro w ⟨ws, hk, hws, rfl⟩
  -- the repetitions are one round of as many things that are all the same
  have hround : Round (fun _ : Unit => L) (List.replicate ws.length ()) ws.flatten :=
    ⟨ws, List.length_replicate.symm, fun e he => hws e.2 (List.of_mem_zip he).2, rfl⟩
  obtain ⟨m, hall⟩ := inOrder (fun _ _ => h) 0 _ hround
  rw [← times_eq_inOrder] at hall
  exact ⟨m, (Scripted.count hb hk).bind hall⟩

theorem pick {f : Tree → Act Script Int} {L : Tree → List Char → Prop} {t : Tree} {ts : List Tree}
    (h : ∀ u ∈ t :: ts, Yields (f u) (L u)) :
    Yields (Act.pick t ts >>= f) fun w => ∃ u ∈ t :: ts, L u w := by
  rintro w ⟨u, hu, hw⟩
  obtain ⟨k, hword⟩ := h u hu w hw
  exact ⟨k, (Scripted.pick hu).bind hword⟩

end Yields

/-- All the bounds within reach of the tree are so narrow that every number between them can be
drawn. -/
def Narrow (rules : Name → Option Tree) (t : Tree) : Prop :=
  ∀ u, Reaches rules t u → u.bounds.hi - u.bounds.lo ≤ twoTo 50

theorem Narrow.of_reaches {rules : Name → Option Tree} {t u : Tree} (h : Narrow rules t)
    (hu : Reaches rules t u) : Narrow rules u :=
  fun v hv => h v (hu.trans hv)

namespace Setting

variable {s : Setting} {texts : Table Name (List Char)}

/-- The expansion of a tree in shape can write every word of the tree, if it has room for all its
levels. -/
theorem expandWithin_yields (hb : Rulebook.build (Definition.ofTexts texts) = .ok s.book)
    {room : Nat} {u : Tree} (hu : u.Shaped) (hfit : FitsIn (treeOf texts) room u)
    (hnarrow : Narrow (treeOf texts) u) :
    Yields (s.expandWithin room (u.link s.book.slotOf))
      (Speaks (linkedTreeOf texts s.book) (u.link s.book.slotOf)) := by
  -- what fits and what is narrow is handed down to the children and to the rule of a name
  refine expandWithin_induct_room
    (motive := fun n u act => FitsIn (treeOf texts) n u → Narrow (treeOf texts) u →
      Yields act (Speaks (linkedTreeOf texts s.book) (u.link s.book.slotOf)))
    hb ?tooDeep ?particle ?undefined ?defined ?choice ?sequence room hu hfit hnarrow
  case tooDeep =>
    intro u hfit
    cases hfit
  case particle =>
    intro n c b _ _ hnarrow
    have hwidth : b.hi - b.lo ≤ twoTo 50 := hnarrow _ .refl
    exact ((Yields.emit [c]).repeated hwidth).mono fun w hw => hw.repeats_particle
  case undefined =>
    intro n name b slot _ ht _ hnarrow
    have hwidth : b.hi - b.lo ≤ twoTo 50 := hnarrow _ .refl
    refine ((Yields.of_throw (.unknown name)).repeated hwidth).mono fun w hw => ?_
    exact hw.repeats_undefined (by simp [linkedTreeOf, ht])
  case defined =>
    intro n name b slot t act _ ht ih hfit hnarrow
    have hwidth : b.hi - b.lo ≤ twoTo 50 := hnarrow _ .refl
    cases hfit with
    | reference hrule =>
      have ih := ih (hrule t ht) (hnarrow.of_reaches (.rule .refl ht))
      refine (ih.repeated hwidth).mono fun w hw => ?_
      exact hw.repeats_reference (by simp [linkedTreeOf, ht])
  case choice =>
    intro n t ts b f _ ih hfit hnarrow
    have hwidth : b.hi - b.lo ≤ twoTo 50 := hnarrow _ .refl
    cases hfit with
    | choice hts =>
      have ih := fun u hu => ih u hu (hts u hu) (hnarrow.of_reaches (.of_mem_choice hu))
      refine ((Yields.pick ih).repeated hwidth).mono fun w hw => ?_
      rw [Tree.link_choice] at hw
      simpa using hw.repeats_choice
  case sequence =>
    intro n ts b f _ ih hfit hnarrow
    have hwidth : b.hi - b.lo ≤ twoTo 50 := hnarrow _ .refl
    cases hfit with
    | sequence hts =>
      have ih := fun u hu => ih u hu (hts u hu) (hnarrow.of_reaches (.of_mem_sequence hu))
      refine ((Yields.inOrder ih 0).repeated hwidth).mono fun w hw => ?_
      rw [Tree.link_sequence] at hw
      have hrounds := hw.repeats_sequence
      rwa [round_map] at hrounds

/-- Every word of the language of a pattern can be made: some numbers at the front of a script make
it and are used up, whatever is written in the script behind them and whatever the text in front is.
For that no bounds within reach may be more than 2⁵⁰ apart, and the budget has to have the levels
that the pattern and `n` texts as rules may take up, with no limit beside it. -/
theorem every_word_is_made (hb : Rulebook.build (Definition.ofTexts texts) = .ok s.book)
    {source : List Char} {p : Pattern} (hp : Pattern.compile source = .ok p)
    (hnarrow : Narrow (treeOf texts) p.root) (hc : s.ceiling = none)
    (hbudget : 102 * texts.length + 101 ≤ s.budget) {w : List Char}
    (hw : Speaks (linkedTreeOf texts s.book) (p.root.link s.book.slotOf) w) :
    ∃ is : List Nat, ∀ rest text,
      s.generate p.root ⟨(⟨is ++ rest⟩ : Script), text⟩ = .ok w ⟨⟨rest⟩, text ++ w⟩ := by
  have hshaped := Pattern.shaped_root hp
  have hroom : 102 * texts.length + 102 ≤ s.room 0 := by
    simp only [room, hc]
    omega
  obtain ⟨k, is, his⟩ :=
    expandWithin_yields hb hshaped ((root_fitsIn hb hp).mono hroom) hnarrow w hw
  refine ⟨is, fun rest text => ?_⟩
  rw [generate_eq_word hshaped, word_eq_ok]
  exact ⟨⟨k, his rest text⟩, (Run.since_append (by simp)).symm⟩

/-- A word with the second of two letters, which may be left out, and a production twice. -/
theorem every_word_is_made_optional :
    let s : Setting := ⟨7, ⟨[['v']], [.sequence [.particle ['e'] .once] .once]⟩, 203, none⟩
    let texts : Table Name (List Char) := [(['v'], "e".toList)]
    let t : Tree := .sequence [.choice [.particle ['a'] .once, .particle ['b'] .once] .optional,
      .reference ['v'] ⟨0, 2⟩ none] .once
    Rulebook.build (Definition.ofTexts texts) = .ok s.book ∧
      Pattern.compile "[ab]?$v\x7b0,2\x7d".toList = .ok ⟨"[ab]?$v\x7b0,2\x7d".toList, t⟩ ∧
      Narrow (treeOf texts) t ∧
      Speaks (linkedTreeOf texts s.book) (t.link s.book.slotOf) ['b', 'e', 'e'] ∧
      ∃ is : List Nat, ∀ rest text, s.generate t ⟨(⟨is ++ rest⟩ : Script), text⟩ =
        .ok ['b', 'e', 'e'] ⟨⟨rest⟩, text ++ ['b', 'e', 'e']⟩ := by
  intro s texts t
  have hb : Rulebook.build (Definition.ofTexts texts) = .ok s.book := by cbv
  have hp : Pattern.compile "[ab]?$v\x7b0,2\x7d".toList =
      .ok ⟨"[ab]?$v\x7b0,2\x7d".toList, t⟩ := by cbv
  have hrule : treeOf texts ['v'] = some (.sequence [.particle ['e'] .once] .once) := by cbv
  have hnarrow : Narrow (treeOf texts) t := by
    let nodes : List Tree := [t, .choice [.particle ['a'] .once, .particle ['b'] .once] .optional,
      .particle ['a'] .once, .particle ['b'] .once, .reference ['v'] ⟨0, 2⟩ none,
      .sequence [.particle ['e'] .once] .once, .particle ['e'] .once]
    have hnodes : ∀ u, Reaches (treeOf texts) t u → u ∈ nodes := by
      intro u hu
      induction hu with
      | refl => exact List.mem_cons_self
      | choice _ hu ih => grind
      | sequence _ hu ih => grind
      | rule _ hu ih => grind
    have hall : ∀ u ∈ nodes, u.bounds.hi - u.bounds.lo ≤ twoTo 50 := by decide
    exact fun u hu => hall u (hnodes u hu)
  have hw : Speaks (linkedTreeOf texts s.book) (t.link s.book.slotOf) ['b', 'e', 'e'] := by
    have honce : Bounds.once.Admits 1 := ⟨by decide, by decide⟩
    have hletter (c : Char) : Speaks (linkedTreeOf texts s.book) (.particle [c] .once) [c] :=
      .particle honce
    have hfirst : Speaks (linkedTreeOf texts s.book)
        (.choice [.particle ['a'] .once, .particle ['b'] .once] .optional) ['b'] := by
      refine .of_repeats_choice ⟨[['b']], ⟨by decide, by decide⟩, ?_, rfl⟩
      simpa using .inr (hletter 'b')
    have hrule :
        Speaks (linkedTreeOf texts s.book) (.sequence [.particle ['e'] .once] .once) ['e'] := by
      refine .of_repeats_sequence ⟨[['e']], honce, ?_, rfl⟩
      simpa using ⟨[['e']], rfl, by simpa using hletter 'e', rfl⟩
    have hlinked :
        linkedTreeOf texts s.book ['v'] = some (.sequence [.particle ['e'] .once] .once) := by cbv
    have hsecond :
        Speaks (linkedTreeOf texts s.book) (.reference ['v'] ⟨0, 2⟩ (some 0)) ['e', 'e'] := by
      refine .of_repeats_reference hlinked ⟨[['e'], ['e']], ⟨by decide, by decide⟩, ?_, rfl⟩
      simpa using hrule
    rw [Tree.link_sequence]
    refine .of_repeats_sequence ⟨[['b', 'e', 'e']], honce, ?_, rfl⟩
    simpa using ⟨[['b'], ['e', 'e']], rfl, by simpa using ⟨hfirst, hsecond⟩, rfl⟩
  exact ⟨hb, hp, hnarrow, hw, every_word_is_made hb hp hnarrow rfl (by decide) hw⟩

end Setting

end Coinage
