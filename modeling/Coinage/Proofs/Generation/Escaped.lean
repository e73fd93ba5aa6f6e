import Coinage.Chance.Twister
import Coinage.Proofs.Generation.Acts
import Coinage.Proofs.Rulebook.Acceptance
import Mathlib

/-!
# Texts are quoted by escaping

An escaped character stands for itself, whatever it means otherwise and whatever follows it. So a
text with a backslash in front of every character is a pattern, and the text is the one word that is
made from it, without a draw, as a pattern of its own and as the rule of a production.
-/

namespace Coinage

open Grammar

variable {ρ : Type}

/-- The text with a backslash in front of every character. -/
def escapeAll (w : List Char) : List Char := w.flatMap fun c => ['\\', c]

/-- The tree that writes the text and does nothing else: a sequence of its characters. -/
def Tree.spelling (w : List Char) : Tree := .sequence (w.map fun c => .particle [c] .once) .once

theorem tokens_escapeAll (w : List Char) :
    Tokens [] (escapeAll w) (w.map fun c => .particle [c] .once) [] := by
  induction w with
  | nil => exact .nothing gap_nil rfl
  | cons c w ih => exact .escaped gap_nil ih

@[simp] theorem compile_escapeAll (w : List Char) :
    Pattern.compile (escapeAll w) = .ok ⟨escapeAll w, .spelling w⟩ :=
  compile_of_derives ⟨_, tokens_escapeAll w, rfl⟩

@[simp] theorem Tree.link_spelling (slotOf : Name → Option Int) (w : List Char) :
    (spelling w).link slotOf = spelling w := by
  rw [spelling, link_sequence, List.map_map]
  rfl

/-- The characters of a text are written one after the other. -/
@[simp] theorem inOrder_emit (w : List Char) (total : Int) (r : Run ρ) :
    inOrder (fun c => Act.emit [c]) w total r =
      .ok (total + w.length) { r with text := r.text ++ w } := by
  induction w generalizing total r with
  | nil => simp [inOrder]
  | cons c w ih =>
    simp only [inOrder, Act.emit, ih]
    simp [Int.add_assoc, Int.add_comm 1]

theorem definedTree_escapeAll {ds : Table Name Definition} {name : Name} {w : List Char}
    (h : ds.get? name = some (.text (escapeAll w))) : definedTree ds name = some (.spelling w) := by
  simp only [definedTree, h, Option.bind_some, Definition.pattern, compile_escapeAll]
  rfl

namespace Setting

variable {s : Setting} {seed budget : Int} {ceiling : Option Nat} {ds : Table Name Definition}
  {w : List Char}

/-- The levels that a budget below the ceiling allows are there. -/
theorem exists_room_of_build (hs : build seed ds budget ceiling = .ok s) {n : Nat}
    (hn : n ≤ budget) (hc : ∀ c ∈ ceiling, n < c) : ∃ room, s.room 0 = room + (n + 1) := by
  apply Nat.exists_eq_add_of_le'
  rw [(build_eq_ok.mp hs).2]
  cases ceiling with
  | none =>
    simp only [room]
    omega
  | some c =>
    have hc : n < c := hc c rfl
    simp only [room]
    omega

variable [Draws ρ]

/-- A root and the characters below it take up two levels. -/
@[simp] theorem expandWithin_spelling (s : Setting) (room : Nat) (w : List Char) (r : Run ρ) :
    s.expandWithin (room + 2) (.spelling w) r = .ok w.length { r with text := r.text ++ w } := by
  have hletter (c : Char) : (s.expandWithin (room + 1) (.particle [c] .once) : Act ρ Int) =
      Act.emit [c] := Act.repeated_once _
  have hletters : (s.expandWithin (room + 2) (.spelling w) : Act ρ Int) =
      inOrder (fun c => Act.emit [c]) w 0 := by
    rw [Tree.spelling, expandWithin_sequence, inOrder_map, funext hletter]
    exact Act.repeated_once _
  rw [hletters, inOrder_emit, Int.zero_add]

/-- A root and the reference below it take up two levels more than the rule. -/
theorem expandWithin_named {rules : Name → Option Tree} (h : s.book.Resolves rules) {name : Name}
    {u : Tree} (hu : rules name = some u) (room : Nat) :
    (s.expandWithin (room + 2) (.sequence [.reference name .once (s.book.slotOf name)] .once) :
      Act ρ Int) = s.expandWithin room (u.link s.book.slotOf) := by
  have honce (act : Act ρ Int) : Act.repeated .once act = act := Act.repeated_once act
  rw [expandWithin_sequence, honce, inOrder_singleton, expandWithin_reference, honce,
    rule_of_defined h hu, pure_bind]

/-- The word of a pattern is the text that its root adds. -/
theorem generate_of_expand {t : Tree} (ht : t.Shaped) {r : Run ρ} {k : Int}
    (h : s.expand (t.link s.book.slotOf) 0 r = .ok k { r with text := r.text ++ w }) :
    s.generate t r = .ok w { r with text := r.text ++ w } := by
  rw [generate_eq_word ht, word_eq_ok]
  exact ⟨⟨k, h⟩, (Run.since_append (by simp)).symm⟩

/-- Escaping quotes any text. With a backslash in front of every character a text is a pattern,
whose root has the characters themselves as its children, each to be written once. In every setting
that is built and allows a level below the root the pattern is made into the text, and nothing is
drawn; and so is every name that stands for the pattern there, if three levels are allowed below the
root. The ceiling must leave room for these levels, too. -/
theorem escaped_texts_are_written_out (hs : build seed ds budget ceiling = .ok s)
    (hceiling : ∀ c ∈ ceiling, 3 < c) (w : List Char) :
    Pattern.compile (escapeAll w) = .ok ⟨escapeAll w,
        .sequence (w.map fun c => .particle [c] .once) .once⟩ ∧
      (1 ≤ budget → ∀ p, Pattern.compile (escapeAll w) = .ok p → ∀ r : Run ρ,
        s.generate p.root r = .ok w { r with text := r.text ++ w }) ∧
      ∀ name, ds.get? name = some (.text (escapeAll w)) → 3 ≤ budget →
        ∃ p, Pattern.compile ('$' :: name) = .ok p ∧ ∀ r : Run ρ,
          s.generate p.root r = .ok w { r with text := r.text ++ w } := by
  refine ⟨compile_escapeAll w, fun hbudget p hp r => ?_, fun name hname hbudget => ?_⟩
  · obtain ⟨room, hroom⟩ := exists_room_of_build hs (n := 1) hbudget
      fun c hc => Nat.lt_of_le_of_lt (by decide) (hceiling c hc)
    have hshaped := Pattern.shaped_root hp
    cases (compile_escapeAll w).symm.trans hp
    refine generate_of_expand hshaped (k := w.length) ?_
    rw [Tree.link_spelling, expand, hroom]
    exact s.expandWithin_spelling room w r
  · obtain ⟨room, hroom⟩ := exists_room_of_build hs (n := 3) hbudget hceiling
    have hb := (build_eq_ok.mp hs).1
    have hid := (Rulebook.legible_of_build hb _ (Table.mem_of_get? hname)).1
    have hp := compile_reference hid
    refine ⟨_, hp, fun r => generate_of_expand (Pattern.shaped_root hp) (k := w.length) ?_⟩
    rw [Tree.link_sequence, List.map_singleton, Tree.link, expand, hroom, expandWithin_named
      (Rulebook.resolves_of_definitions hb) (definedTree_escapeAll hname), Tree.link_spelling]
    exact s.expandWithin_spelling room w r

/-- A blank, brackets, a backslash, a dollar sign, marks of bounds and a line feed, as a pattern and
as a production. -/
theorem escaped_texts_are_written_out_special :
    let w : List Char := [' ', '[', ')', '\\', '$', '?', '\x7b', '\n']
    let ds : Table Name Definition := [(['v'], .text (escapeAll w))]
    let s : Setting := ⟨7, ⟨[['v']], [.spelling w]⟩, 3, some 4⟩
    let r : Run Twister := ⟨.ofSeed 7, #['x']⟩
    build 7 ds 3 (some 4) = .ok s ∧ (∀ c ∈ some 4, 3 < c) ∧
      s.generate (.spelling w) r = .ok w { r with text := #['x'] ++ w } ∧
      s.generate (.sequence [.reference ['v'] .once none] .once) r =
        .ok w { r with text := #['x'] ++ w } := by
  intro w ds s r
  have hs : build 7 ds 3 (some 4) = .ok s := by cbv
  have hceiling : ∀ c ∈ some 4, 3 < c := by decide
  obtain ⟨hp, hword, hname⟩ := escaped_texts_are_written_out (ρ := Twister) hs hceiling w
  obtain ⟨p, hcall, hcalled⟩ := hname ['v'] rfl (by decide)
  have hv : Pattern.compile ['$', 'v'] =
      .ok ⟨['$', 'v'], .sequence [.reference ['v'] .once none] .once⟩ := by cbv
  cases hv.symm.trans hcall
  exact ⟨hs, hceiling, hword (by decide) _ hp r, hcalled r⟩

end Setting

end Coinage
