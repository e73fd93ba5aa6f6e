import Coinage.Chance.Twister
import Coinage.Proofs.Generation.Length
import Coinage.Proofs.Rulebook.Reach
import Mathlib

/-!
# What is made without draws

Draws are made for the number of repetitions, if the bounds leave more than one, and for the child
of an alternation. A tree that reaches neither is made into the same word, or fails in the same way,
from every source of chance, and it leaves the source as it was. The seed itself is never looked at.
-/

namespace Coinage

variable {ρ α β : Type}

/-- Nothing that the tree reaches is left to chance: it reaches no alternation, and all bounds are
equal. -/
def Choiceless (rules : Name → Option Tree) (t : Tree) : Prop :=
  ∀ u, Reaches rules t u → (∀ ts b, u ≠ .choice ts b) ∧ u.bounds.lo = u.bounds.hi

theorem Choiceless.of_reaches {rules : Name → Option Tree} {t u : Tree} (h : Choiceless rules t)
    (hu : Reaches rules t u) : Choiceless rules u :=
  fun v hv => h v (hu.trans hv)

theorem Choiceless.lo_eq_hi {rules : Name → Option Tree} {t : Tree} (h : Choiceless rules t) :
    t.bounds.lo = t.bounds.hi :=
  (h t .refl).2

/-- The action makes no draw and depends on none: with every source it gives one answer and adds one
text, and it leaves the source as it was. -/
def Drawless (act : Act ρ α) : Prop :=
  ∃ (answer : Except Failure α) (added : Array Char),
    ∀ draws text, act ⟨draws, text⟩ = answered answer ⟨draws, text ++ added⟩

namespace Drawless

theorem pure (a : α) : Drawless (pure a : Act ρ α) :=
  ⟨.ok a, #[], fun _ text => by rw [Array.append_empty]; rfl⟩

theorem throw (e : Failure) : Drawless (throw e : Act ρ α) :=
  ⟨.error e, #[], fun _ text => by rw [Array.append_empty]; rfl⟩

theorem emit (v : List Char) : Drawless (Act.emit v : Act ρ Int) := by
  refine ⟨.ok 1, v.toArray, fun draws text => ?_⟩
  have hadded : text ++ v = text ++ v.toArray := Array.ext' (by simp)
  simp only [Act.emit, answered, hadded]

theorem bind {x : Act ρ α} {f : α → Act ρ β} (hx : Drawless x) (hf : ∀ a, Drawless (f a)) :
    Drawless (x >>= f) := by
  obtain ⟨answer, added, hx⟩ := hx
  cases answer with
  | ok a =>
    obtain ⟨answer', added', hf⟩ := hf a
    refine ⟨answer', added ++ added', fun draws text => ?_⟩
    simp only [Bind.bind, EStateM.bind, hx, answered, hf, Array.append_assoc]
  | error e =>
    refine ⟨.error e, added, fun draws text => ?_⟩
    simp only [Bind.bind, EStateM.bind, hx, answered]

theorem inOrder {γ : Type} {f : γ → Act ρ Int} {as : List γ} (h : ∀ a ∈ as, Drawless (f a))
    (total : Int) : Drawless (inOrder f as total) :=
  inOrder_rel (R := fun act _ => Drawless act) pure bind (g := f) h total

theorem rule (s : Setting) (name : Name) (slot : Option Int) :
    Drawless (s.rule name slot : Act ρ Tree) := by
  rcases s.rule_cases name slot with ⟨t, h⟩ | h | h <;> rw [h]
  · exact .pure t
  · exact .throw _
  · exact .throw _

variable [Draws ρ]

theorem repeated {act : Act ρ Int} {b : Bounds} (hb : b.lo = b.hi) (h : Drawless act) :
    Drawless (Act.repeated b act) := by
  rw [Act.repeated, Act.count_of_eq hb, pure_bind, times_eq_inOrder]
  exact inOrder (fun _ _ => h) 0

end Drawless

/-- The text that an answer tells: the word, or what was written of it. -/
def toldText : Except Abort (List Char) → List Char
  | .ok w => w
  | .error a => a.written

namespace Setting

def withSeed (s : Setting) (seed : Int) : Setting := { s with seed := seed }

variable [Draws ρ] {s : Setting} {rules : Name → Option Tree} {t : Tree}

@[simp] theorem expandWithin_withSeed (s : Setting) (seed : Int) (room : Nat) (t : Tree) :
    ((s.withSeed seed).expandWithin room t : Act ρ Int) = s.expandWithin room t := by
  refine stepwise_eq.expandWithin s (s.withSeed seed) rfl (fun n name slot h => ?_) room t
  rw [funext h]
  rfl

/-- The seed of a setting is never looked at. -/
@[simp] theorem generate_withSeed (s : Setting) (seed : Int) (t : Tree) :
    ((s.withSeed seed).generate t : EStateM Abort (Run ρ) (List Char)) = s.generate t := by
  have hexpand (u : Tree) : ((s.withSeed seed).expand u 0 : Act ρ Int) = s.expand u 0 :=
    s.expandWithin_withSeed seed (s.room 0) u
  funext r
  simp only [generate, word_congr (hexpand _)]
  rfl

theorem expandWithin_drawless (hres : s.book.Resolves rules) (room : Nat)
    (ht : Choiceless rules t) :
    Drawless (s.expandWithin room (t.link s.book.slotOf) : Act ρ Int) := by
  -- on the room: a reference goes on with its rule, which is no part of the tree
  induction room generalizing t with
  | zero => exact .throw _
  | succ room ih =>
    cases t with
    | particle v b =>
      rw [Tree.link, expandWithin_particle]
      exact (Drawless.emit v).repeated ht.lo_eq_hi
    | reference name b slot =>
      rw [Tree.link, expandWithin_reference]
      cases hr : rules name with
      | none =>
        rw [rule_of_undefined hres hr]
        exact (Drawless.throw _).repeated ht.lo_eq_hi
      | some u =>
        rw [rule_of_defined hres hr, pure_bind]
        exact (ih (ht.of_reaches (.rule .refl hr))).repeated ht.lo_eq_hi
    | choice ts b => exact absurd rfl ((ht _ .refl).1 ts b)
    | sequence ts b =>
      rw [Tree.link_sequence, expandWithin_sequence, inOrder_map]
      have hchild : ∀ u ∈ ts, Drawless (s.expandWithin room (u.link s.book.slotOf) : Act ρ Int) :=
        fun u hu => ih (ht.of_reaches (.of_mem_sequence hu))
      exact (Drawless.inOrder hchild 0).repeated ht.lo_eq_hi
    | stray b => exact .throw _

theorem word_of_drawless (h : Drawless (s.expand t 0 : Act ρ Int)) :
    ∃ answer : Except Abort (List Char), ∀ r : Run ρ,
      s.word t r = answered answer { r with text := r.text ++ toldText answer } := by
  obtain ⟨answer, added, h⟩ := h
  have hsince (r : Run ρ) : (⟨r.draws, r.text ++ added⟩ : Run ρ).since r.text.size =
      added.toList := Run.since_append (by simp)
  have hadded (r : Run ρ) : r.text ++ added.toList = r.text ++ added := Array.ext' (by simp)
  cases answer with
  | ok n =>
    refine ⟨.ok added.toList, fun r => ?_⟩
    simp only [word, h r.draws r.text, answered, hsince, toldText, hadded]
  | error e =>
    refine ⟨.error ⟨e, added.toList⟩, fun r => ?_⟩
    simp only [word, h r.draws r.text, answered, hsince, toldText, hadded]

/-- What leaves nothing to chance does not touch it. For every accepted table and every tree that
reaches no alternation and only equal bounds there is one answer, a word or a failure with what was
written of the word, that the tree is made into with every seed and every source of chance, behind
any text, and the source is left as it was. -/
theorem choiceless_words_touch_no_draws {ds : Table Name Definition}
    (hb : Rulebook.build ds = .ok s.book) (ht : Choiceless (definedTree ds) t) :
    ∃ answer : Except Abort (List Char), ∀ (seed : Int) (r : Run ρ),
      (s.withSeed seed).generate t r =
        answered answer { r with text := r.text ++ toldText answer } := by
  simp only [generate_withSeed]
  by_cases hproper : t.isProper = true
  · have hlink : t.link? s.book.slotOf = some (t.link s.book.slotOf) := if_pos hproper
    obtain ⟨answer, hword⟩ := word_of_drawless
      (expandWithin_drawless (ρ := ρ) (Rulebook.resolves_of_definitions hb) (s.room 0) ht)
    exact ⟨answer, fun _ r => by simp only [generate, hlink, hword]⟩
  · have hlink : t.link? s.book.slotOf = none := if_neg hproper
    exact ⟨.error ⟨.notANode, []⟩, fun _ r => by simp [generate, hlink, answered, toldText]⟩

/-- A production that is repeated twice, and one that is missing: the word is never finished. -/
theorem choiceless_words_touch_no_draws_unknown :
    let s : Setting := ⟨7, ⟨[['v']], [.sequence [.particle ['e'] ⟨2, 2⟩] .once]⟩, 5, none⟩
    let ds : Table Name Definition := [(['v'], .text "e\x7b2,2\x7d".toList)]
    let t : Tree := .sequence [.reference ['v'] ⟨2, 2⟩ none, .reference ['w'] .once none] .once
    let p : Pattern := ⟨"$v\x7b2,2\x7d$w".toList, t⟩
    Rulebook.build ds = .ok s.book ∧ Pattern.compile p.source = .ok p ∧
      Choiceless (definedTree ds) p.root ∧ ∀ (seed : Int) (r : Run Twister),
        (s.withSeed seed).generate p.root r = .error ⟨.unknown ['w'], "eeee".toList⟩
          { r with text := r.text ++ "eeee".toList } := by
  intro s ds t p
  have hb : Rulebook.build ds = .ok s.book := by cbv
  have hp : Pattern.compile p.source = .ok p := by cbv
  have hrule : definedTree ds ['v'] = some (.sequence [.particle ['e'] ⟨2, 2⟩] .once) := by cbv
  have hnone : definedTree ds ['w'] = none := by cbv
  have ht : Choiceless (definedTree ds) t := by
    let nodes : List Tree := [t, .reference ['v'] ⟨2, 2⟩ none, .reference ['w'] .once none,
      .sequence [.particle ['e'] ⟨2, 2⟩] .once, .particle ['e'] ⟨2, 2⟩]
    have hnodes : ∀ u, Reaches (definedTree ds) t u → u ∈ nodes := by
      intro u hu
      induction hu with
      | refl => exact List.mem_cons_self
      | choice _ hu ih => simp [nodes, t] at ih
      | sequence _ hu ih => grind
      | rule _ hu ih => grind
    have hbounds : ∀ u ∈ nodes, u.bounds.lo = u.bounds.hi := by decide
    refine fun u hu => ⟨?_, hbounds u (hnodes u hu)⟩
    rintro ts b rfl
    simpa [nodes, t] using hnodes _ hu
  obtain ⟨answer, hall⟩ := choiceless_words_touch_no_draws (ρ := Twister) hb ht
  have hrun : s.generate t ⟨Twister.ofSeed 7, #[]⟩ =
      .error ⟨.unknown ['w'], "eeee".toList⟩ ⟨.ofSeed 7, #['e', 'e', 'e', 'e']⟩ := rfl
  have hanswer := (hall s.seed ⟨Twister.ofSeed 7, #[]⟩).symm.trans hrun
  cases answer with
  | ok w => simp only [answered, reduceCtorEq] at hanswer
  | error a =>
    obtain ⟨rfl, -⟩ := EStateM.Result.error.inj hanswer
    exact ⟨hb, hp, ht, hall⟩

end Setting

end Coinage
