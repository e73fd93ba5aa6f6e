import Coinage.Chance.Twister
import Coinage.Proofs.Generation.Acts
import Coinage.Proofs.Generation.Language
import Mathlib

/-!
# Words that are made are words of the language

Whatever the draws are, a word that is made from a pattern is one of the words that its tree stands
for. The invariant is on single actions: an action that succeeds has added one word of a language
behind the text, and has left the rest of the text as it was.
-/

namespace Coinage

variable {ρ : Type}

/-- If the action succeeds, it adds a word of the language behind the text. -/
def Writes (act : Act ρ Int) (L : List Char → Prop) : Prop :=
  ∀ r k r', act r = .ok k r' → ∃ w, L w ∧ r'.text.toList = r.text.toList ++ w

namespace Writes

variable {act : Act ρ Int} {L L' : List Char → Prop}

theorem mono (h : Writes act L) (hL : ∀ w, L w → L' w) : Writes act L' := by
  intro r k r' ha
  obtain ⟨w, hw, ht⟩ := h r k r' ha
  exact ⟨w, hL w hw, ht⟩

theorem of_throw (e : Failure) : Writes (throw e : Act ρ Int) fun _ => False := by
  intro r k r' ha
  cases ha

theorem emit (v : List Char) : Writes (Act.emit v : Act ρ Int) (· = v) := by
  intro r k r' ha
  cases ha
  exact ⟨v, rfl, by simp⟩

theorem inOrder {α : Type} {f : α → Act ρ Int} {L : α → List Char → Prop} {as : List α}
    (h : ∀ a ∈ as, Writes (f a) (L a)) (total : Int) :
    Writes (inOrder f as total) (Round L as) := by
  induction as generalizing total with
  | nil =>
    intro r k r' ha
    cases ha
    exact ⟨[], ⟨[], rfl, by simp, rfl⟩, by simp⟩
  | cons a as ih =>
    intro r k r' ha
    obtain ⟨hhead, htail⟩ := List.forall_mem_cons.mp h
    simp only [Coinage.inOrder] at ha
    split at ha
    · rename_i k₁ r₁ h₁
      obtain ⟨v, hv, ht₁⟩ := hhead r k₁ r₁ h₁
      obtain ⟨_, ⟨vs, hl, hvs, rfl⟩, ht⟩ := ih htail (total + k₁) r₁ k r' ha
      refine ⟨_, ⟨v :: vs, ?_, List.forall_mem_cons.mpr ⟨hv, hvs⟩, rfl⟩, ?_⟩
      · rw [List.length_cons, List.length_cons, hl]
      · rw [ht, ht₁, List.flatten_cons, List.append_assoc]
    · cases ha

theorem times (h : Writes act L) (n : Nat) (total : Int) :
    Writes (times act n total)
      fun w => ∃ ws : List (List Char), ws.length = n ∧ (∀ v ∈ ws, L v) ∧ ws.flatten = w := by
  rw [times_eq_inOrder]
  refine (inOrder (fun _ _ => h) total).mono ?_
  rintro w ⟨ws, hl, hws, he⟩
  refine ⟨ws, by simpa using hl, fun v hv => ?_, he⟩
  rw [← List.map_snd_zip (Nat.le_of_eq hl)] at hv
  obtain ⟨e, he, rfl⟩ := List.mem_map.mp hv
  exact hws e he

variable [Draws ρ]

theorem repeated {b : Bounds} (hb : b.Valid) (h : Writes act L) :
    Writes (Act.repeated b act) (Repeats b L) := by
  intro r k r' ha
  obtain ⟨n, r₁, hn, ha⟩ := stateM_bind_eq_ok.mp ha
  obtain ⟨hlo, hhi, ht₁⟩ := Act.count_eq_ok hb.le hn
  obtain ⟨w, ⟨ws, hl, hws, he⟩, ht⟩ := h.times n.toNat 0 r₁ k r' ha
  have hcast : (n.toNat : Int) = n := Int.toNat_of_nonneg (Int.le_trans hb.nonneg hlo)
  refine ⟨w, ⟨ws, ⟨?_, ?_⟩, hws, he⟩, by rw [ht, ht₁]⟩
  · rw [hl, hcast]
    exact hlo
  · rw [hl, hcast]
    exact hhi

theorem pick {f : Tree → Act ρ Int} {L : Tree → List Char → Prop} {t : Tree} {ts : List Tree}
    (h : ∀ u ∈ t :: ts, Writes (f u) (L u)) :
    Writes (Act.pick t ts >>= f) fun w => ∃ u ∈ t :: ts, L u w := by
  intro r k r' ha
  obtain ⟨u, r₁, hp, ha⟩ := stateM_bind_eq_ok.mp ha
  obtain ⟨hu, ht₁⟩ := Act.pick_eq_ok hp
  obtain ⟨w, hw, ht⟩ := h u hu r₁ k r' ha
  exact ⟨w, ⟨u, hu, hw⟩, by rw [ht, ht₁]⟩

end Writes

namespace Setting

variable [Draws ρ] {s : Setting} {texts : Table Name (List Char)}

/-- Expanding a tree in shape adds one of its words, whatever the room is. -/
theorem expandWithin_writes (hb : Rulebook.build (Definition.ofTexts texts) = .ok s.book)
    (room : Nat) {u : Tree} (hu : u.Shaped) :
    Writes (s.expandWithin room (u.link s.book.slotOf) : Act ρ Int)
      (Speaks (linkedTreeOf texts s.book) (u.link s.book.slotOf)) := by
  refine expandWithin_induct
    (motive := fun u act => Writes act (Speaks (linkedTreeOf texts s.book) (u.link s.book.slotOf)))
    hb ?tooDeep ?particle ?undefined ?defined ?choice ?sequence room hu
  case tooDeep => exact fun u => (Writes.of_throw _).mono fun _ => False.elim
  case particle =>
    intro c b hv
    exact ((Writes.emit _).repeated hv).mono fun w => .of_repeats_particle
  case undefined =>
    intro name b slot hv ht
    refine ((Writes.of_throw (.unknown name)).repeated hv).mono fun w hw => ?_
    exact .of_repeats_undefined (by simp [linkedTreeOf, ht]) hw
  case defined =>
    intro name b slot t act hv ht ih
    refine (ih.repeated hv).mono fun w hw => ?_
    exact .of_repeats_reference (by simp [linkedTreeOf, ht]) hw
  case choice =>
    intro t ts b f hv ih
    refine ((Writes.pick ih).repeated hv).mono fun w hw => ?_
    rw [Tree.link_choice]
    exact .of_repeats_choice (by simpa using hw)
  case sequence =>
    intro ts b f hv ih
    refine ((Writes.inOrder ih 0).repeated hv).mono fun w hw => ?_
    rw [Tree.link_sequence]
    exact .of_repeats_sequence (by rwa [round_map])

theorem word_speaks {t : Tree} {L : List Char → Prop} (ht : Writes (s.expand t 0 : Act ρ Int) L)
    {r r' : Run ρ} {w : List Char} (h : s.word t r = .ok w r') : L w := by
  obtain ⟨⟨k, he⟩, rfl⟩ := word_eq_ok.mp h
  obtain ⟨w, hw, hr⟩ := ht r k r' he
  rw [Run.since_append hr]
  exact hw

theorem words_speak {t : Tree} {L : List Char → Prop} (ht : Writes (s.expand t 0 : Act ρ Int) L)
    {n : Nat} {made : Array (List Char)} {r r' : Run ρ} {ws : List (List Char)}
    (hmade : ∀ w ∈ made, L w) (h : s.words t n made r = .ok ws r') : ∀ w ∈ ws, L w := by
  induction n generalizing made r with
  | zero =>
    cases h
    simpa using hmade
  | succ n ih =>
    simp only [words] at h
    split at h
    · rename_i w r₁ hw
      refine ih (fun v hv => ?_) h
      obtain hv | rfl := Array.mem_push.mp hv
      · exact hmade v hv
      · exact word_speaks ht hw
    · cases h

/-- Every word that is made from a pattern, alone or in a batch, is a word of the language of its
linked tree, whatever the draws, the budget, the level limit and the text written before are. -/
theorem generated_words_speak (hb : Rulebook.build (Definition.ofTexts texts) = .ok s.book)
    {source : List Char} {p : Pattern} (hp : Pattern.compile source = .ok p) (r : Run ρ) :
    (∀ w r', s.generate p.root r = .ok w r' →
      Speaks (linkedTreeOf texts s.book) (p.root.link s.book.slotOf) w) ∧
    ∀ count ws r', s.generateBatch p.root count r = .ok ws r' →
      ∀ w ∈ ws, Speaks (linkedTreeOf texts s.book) (p.root.link s.book.slotOf) w := by
  have hroot := Pattern.shaped_root hp
  have hw : Writes (s.expand (p.root.link s.book.slotOf) 0 : Act ρ Int)
      (Speaks (linkedTreeOf texts s.book) (p.root.link s.book.slotOf)) :=
    expandWithin_writes hb (s.room 0) hroot
  refine ⟨fun w r' h => ?_, fun count ws r' h => ?_⟩
  · simp only [generate, hroot.link?_eq] at h
    exact word_speaks hw h
  · simp only [generateBatch, hroot.link?_eq] at h
    exact words_speak hw (by simp) h

/-- A word that runs through a production, made behind a text that was there before. -/
theorem generated_words_speak_doubled :
    let s : Setting := ⟨7, ⟨[['v']], [.sequence [.particle ['e'] ⟨2, 2⟩] .once]⟩, 5, none⟩
    let r : Run Twister := ⟨.ofSeed 7, #['x']⟩
    let texts : Table Name (List Char) := [(['v'], "e\x7b2,2\x7d".toList)]
    let t : Tree := .sequence [.particle ['a'] .once, .reference ['v'] .once none] .once
    Rulebook.build (Definition.ofTexts texts) = .ok s.book ∧
      Pattern.compile "a$v".toList = .ok ⟨"a$v".toList, t⟩ ∧
      s.generate t r = .ok ['a', 'e', 'e'] { r with text := #['x', 'a', 'e', 'e'] } ∧
      Speaks (linkedTreeOf texts s.book) (t.link s.book.slotOf) ['a', 'e', 'e'] := by
  intro s r texts t
  have hb : Rulebook.build (Definition.ofTexts texts) = .ok s.book := by cbv
  have hp : Pattern.compile "a$v".toList = .ok ⟨"a$v".toList, t⟩ := by cbv
  have hg : s.generate t r = .ok ['a', 'e', 'e'] { r with text := #['x', 'a', 'e', 'e'] } := rfl
  exact ⟨hb, hp, hg, (generated_words_speak hb hp r).1 _ _ hg⟩

end Setting

end Coinage
