import Coinage.Proofs.Pattern.Derivation
import Coinage.Proofs.Text.Decimal
import Coinage.Proofs.Tree
import Mathlib

/-!
# Printing patterns

Which trees are roots of patterns, and a text for every one of them. A character that stands for
itself exactly once is escaped, every other node has its bounds written out, and a space behind
every token keeps it apart from the next.
-/

namespace Coinage

open Grammar

namespace Bounds

/-- Bounds that can be written with numerals: in order, and less than 10⁴³⁰⁰. -/
structure Writable (b : Bounds) : Prop where
  nonneg : 0 ≤ b.lo
  le : b.lo ≤ b.hi
  hi_lt : b.hi < tenTo 4300

def print (b : Bounds) : List Char :=
  '\x7b' :: (signedDecimal b.lo ++ ',' :: (signedDecimal b.hi ++ ['\x7d']))

theorem writable_of_lt_hundred {b : Bounds} (h₀ : 0 ≤ b.lo) (h : b.lo ≤ b.hi) (hlt : b.hi < 100) :
    b.Writable := by
  have hpos := tenTo_pos 4298
  have hhundred : tenTo 4300 = tenTo 4298 * 10 * 10 := by
    rw [← tenTo_succ, ← tenTo_succ]
  exact ⟨h₀, h, by omega⟩

end Bounds

theorem Grammar.numeral_decimal {n : Nat} (h : n < tenTo 4300) : Numeral (decimal n) n :=
  ⟨decimal_ne_nil n, fun _ => isDigit_of_mem_decimal, length_decimal_le (by decide) h,
    digitsValue_decimal n⟩

theorem Grammar.Numeral.lt {ds : List Char} {n : Nat} (h : Numeral ds n) : n < tenTo 4300 := by
  rw [← h.value]
  exact Nat.lt_of_lt_of_le (digitsValue_lt ds) (tenTo_le_tenTo h.short)

/-- Bounds are read from a text exactly if they are writable, and then from the printed text. -/
theorem Grammar.Suffix.writable {s r : List Char} {b : Bounds} (h : Suffix s b r) :
    b.Writable := by
  cases h with
  | none => exact Bounds.writable_of_lt_hundred (by decide) (by decide) (by decide)
  | optional => exact Bounds.writable_of_lt_hundred (by decide) (by decide) (by decide)
  | braces _ hhi hle =>
    exact ⟨Int.natCast_nonneg _, Int.ofNat_le.mpr hle, Int.ofNat_lt.mpr hhi.lt⟩

theorem Bounds.Writable.suffix {b : Bounds} (h : b.Writable) (r : List Char) :
    Suffix (b.print ++ r) b r := by
  obtain ⟨lo, hi⟩ := b
  obtain ⟨h₀, hle, hlt⟩ := h
  obtain ⟨lo, rfl⟩ := Int.eq_ofNat_of_zero_le h₀
  obtain ⟨hi, rfl⟩ := Int.eq_ofNat_of_zero_le (Int.le_trans h₀ hle)
  have hlohi : lo ≤ hi := Int.ofNat_le.mp hle
  have hhi : hi < tenTo 4300 := Int.ofNat_lt.mp hlt
  have hlo : lo < tenTo 4300 := Nat.lt_of_le_of_lt hlohi hhi
  have hs : Suffix _ ⟨lo, hi⟩ r := .braces (numeral_decimal hlo) (numeral_decimal hhi) hlohi
  simpa [Bounds.print] using hs

namespace Tree

mutual

/-- How deep groups are nested in a tree, the tree itself included if it is one. -/
def nesting : Tree → Nat
  | particle .. => 0
  | reference .. => 0
  | choice ts _ => nestingAll ts + 1
  | sequence ts _ => nestingAll ts + 1
  | stray _ => 0

def nestingAll : List Tree → Nat
  | [] => 0
  | t :: ts => max t.nesting (nestingAll ts)

end

@[simp] theorem nestingAll_le_iff {ts : List Tree} {n : Nat} :
    nestingAll ts ≤ n ↔ ∀ t ∈ ts, t.nesting ≤ n := by
  induction ts with
  | nil => simp [nestingAll]
  | cons t ts ih => rw [nestingAll, Nat.max_le, ih, List.forall_mem_cons]

/-- A group is within the nesting exactly if one more group can be opened and all that is in it is
within the nesting that is left. -/
theorem add_nestingAll_le_iff {ts : List Tree} {n m : Nat} :
    n + (nestingAll ts + 1) ≤ m ↔ n < m ∧ ∀ t ∈ ts, n + 1 + t.nesting ≤ m := by
  constructor
  · intro h
    refine ⟨by omega, fun t ht => ?_⟩
    have hle := nestingAll_le_iff.mp (Nat.le_refl _) t ht
    omega
  · rintro ⟨hlt, h⟩
    have hle : nestingAll ts ≤ m - n - 1 := nestingAll_le_iff.mpr fun t ht => by
      have := h t ht
      omega
    omega

/-- A tree that can be written down where `closer` would close the group directly around it: a
particle is one character, and if it has a suffix it must not be one with a meaning of its own. -/
inductive Writable : Option Char → Tree → Prop
  | particle {closer : Option Char} {c : Char} {b : Bounds} : b.Writable →
      (b ≠ ⟨1, 1⟩ → c ∉ ['\\', '[', '(', '$', ' ', '\t'] ∧ closer ≠ some c) →
      Writable closer (particle [c] b)
  | reference {closer : Option Char} {name : Name} {b : Bounds} : b.Writable →
      isIdentifier name = true → Writable closer (reference name b none)
  | choice {closer : Option Char} {ts : List Tree} {b : Bounds} : b.Writable → ts ≠ [] →
      (∀ t ∈ ts, Writable (some ']') t) → Writable closer (choice ts b)
  | sequence {closer : Option Char} {ts : List Tree} {b : Bounds} : b.Writable →
      (∀ t ∈ ts, Writable (some ')') t) → Writable closer (sequence ts b)

/-- A root of a pattern: a sequence that is run once, of trees that can be written down with at most
100 groups nested. -/
def IsPatternRoot (t : Tree) : Prop :=
  ∃ ts, t = sequence ts ⟨1, 1⟩ ∧ ∀ u ∈ ts, u.Writable none ∧ u.nesting ≤ 100

mutual

/-- The text of a node, and a space behind it. -/
def print : Tree → List Char
  | particle v b => if b = ⟨1, 1⟩ then '\\' :: (v ++ [' ']) else v ++ (b.print ++ [' '])
  | reference name b _ => '$' :: (name ++ (b.print ++ [' ']))
  | choice ts b => '[' :: (printAll ts ++ ']' :: (b.print ++ [' ']))
  | sequence ts b => '(' :: (printAll ts ++ ')' :: (b.print ++ [' ']))
  | stray _ => []

def printAll : List Tree → List Char
  | [] => []
  | t :: ts => t.print ++ printAll ts

end

/-- The text of a root: the texts of its children. -/
def printRoot : Tree → List Char
  | sequence ts _ => printAll ts
  | _ => []

end Tree

namespace Grammar

variable {closers s r : List Char} {t : Tree} {ts us : List Tree} {b : Bounds}

/-- What tokens stand for can be written down, within the nesting that is left. -/
theorem Tokens.writable (h : Tokens closers s ts r) (hd : closers.length ≤ 100) :
    ∀ t ∈ ts, t.Writable closers.head? ∧ closers.length + t.nesting ≤ 100 := by
  have hone : Bounds.Writable ⟨1, 1⟩ :=
    Bounds.writable_of_lt_hundred (by decide) (by decide) (by decide)
  induction h with
  | nothing => simp
  | escaped _ _ ih =>
    exact List.forall_mem_cons.mpr ⟨⟨.particle hone fun h => absurd rfl h, hd⟩, ih hd⟩
  | choice _ hlt _ hb _ ihu ih =>
    refine List.forall_mem_cons.mpr ⟨⟨.choice hb.writable (List.cons_ne_nil _ _) ?_, ?_⟩, ih hd⟩
    · exact fun u hu => (ihu hlt u hu).1
    · exact Tree.add_nestingAll_le_iff.mpr ⟨hlt, fun u hu => (ihu hlt u hu).2⟩
  | sequence _ hlt _ hb _ ihu ih =>
    refine List.forall_mem_cons.mpr ⟨⟨.sequence hb.writable ?_, ?_⟩, ih hd⟩
    · exact fun u hu => (ihu hlt u hu).1
    · exact Tree.add_nestingAll_le_iff.mpr ⟨hlt, fun u hu => (ihu hlt u hu).2⟩
  | reference _ hn hb _ ih =>
    exact List.forall_mem_cons.mpr ⟨⟨.reference hb.writable hn.isIdentifier, hd⟩, ih hd⟩
  | plain _ hc hb _ ih =>
    exact List.forall_mem_cons.mpr
      ⟨⟨.particle hb.writable fun _ => ⟨hc.not_special, hc.not_closer⟩, hd⟩, ih hd⟩

/-- The printed tree is read back as the first of the tokens. -/
def ReadsBack (closers : List Char) (t : Tree) : Prop :=
  ∀ s ts r, Tokens closers s ts r → Tokens closers (t.print ++ s) (t :: ts) r

theorem Tokens.printAll (hus : ∀ u ∈ us, ReadsBack closers u) (hts : Tokens closers s ts r) :
    Tokens closers (Tree.printAll us ++ s) (us ++ ts) r := by
  induction us with
  | nil => exact hts
  | cons u us ih =>
    obtain ⟨hu, hus⟩ := List.forall_mem_cons.mp hus
    simpa [Tree.printAll] using hu _ _ _ (ih hus)

/-- The printed children of a group are its tokens, up to its closer. -/
theorem tokens_group {closer : Char} (hus : ∀ u ∈ us, ReadsBack (closer :: closers) u) :
    Tokens (closer :: closers) (Tree.printAll us ++ closer :: s) us (closer :: s) := by
  have hend : Tokens (closer :: closers) ([] ++ closer :: s) [] (closer :: s) :=
    .nothing gap_nil rfl
  simpa using Tokens.printAll hus hend

theorem readsBack_of_writable {closer : Option Char} (h : t.Writable closer)
    (hc : closers.head? = closer) (hd : closers.length + t.nesting ≤ 100) :
    ReadsBack closers t := by
  induction h generalizing closers with
  | @particle closer c b hb hplain =>
    intro s ts r hts
    have hts' := hts.of_gap gap_space
    by_cases hone : b = ⟨1, 1⟩
    · subst hone
      simpa [Tree.print] using Tokens.escaped gap_nil hts'
    · obtain ⟨hspecial, hcloser⟩ := hplain hone
      have hx := Tokens.plain gap_nil ⟨hspecial, hc ▸ hcloser⟩ (hb.suffix _) hts'
      simpa [Tree.print, hone] using hx
  | @reference closer name b hb hn =>
    intro s ts r hts
    have hid : Identifier name (b.print ++ ([' '] ++ s)) :=
      ⟨hn, by rintro x ⟨⟩; decide⟩
    simpa [Tree.print] using Tokens.reference gap_nil hid (hb.suffix _) (hts.of_gap gap_space)
  | @choice closer us b hb hne hus ih =>
    intro s ts r hts
    rw [Tree.nesting] at hd
    obtain ⟨hlt, hin⟩ := Tree.add_nestingAll_le_iff.mp hd
    have hread : ∀ u ∈ us, ReadsBack (']' :: closers) u := fun u hu => ih u hu rfl (hin u hu)
    obtain ⟨u, us, rfl⟩ := List.exists_cons_of_ne_nil hne
    have hx := Tokens.choice gap_nil hlt (tokens_group hread) (hb.suffix _) (hts.of_gap gap_space)
    simpa [Tree.print] using hx
  | @sequence closer us b hb hus ih =>
    intro s ts r hts
    rw [Tree.nesting] at hd
    obtain ⟨hlt, hin⟩ := Tree.add_nestingAll_le_iff.mp hd
    have hread : ∀ u ∈ us, ReadsBack (')' :: closers) u := fun u hu => ih u hu rfl (hin u hu)
    have hx := Tokens.sequence gap_nil hlt (tokens_group hread) (hb.suffix _) (hts.of_gap gap_space)
    simpa [Tree.print] using hx

end Grammar

/-- A printed root compiles to the root. -/
theorem compile_printRoot {t : Tree} (h : t.IsPatternRoot) :
    Pattern.compile t.printRoot = .ok ⟨t.printRoot, t⟩ := by
  obtain ⟨ts, rfl, hts⟩ := h
  have hread : ∀ u ∈ ts, ReadsBack [] u := fun u hu =>
    readsBack_of_writable (hts u hu).1 rfl (by simpa using (hts u hu).2)
  have hend : Tokens [] ([] ++ []) [] [] := .nothing gap_nil rfl
  refine compile_of_derives ⟨ts, ?_, rfl⟩
  simpa [Tree.printRoot] using Tokens.printAll hread hend

theorem isPatternRoot_of_compile {s : List Char} {p : Pattern} (h : Pattern.compile s = .ok p) :
    p.root.IsPatternRoot := by
  obtain ⟨-, ts, hts, hroot⟩ := derives_of_compile h
  refine ⟨ts, hroot, fun u hu => ?_⟩
  obtain ⟨hw, hd⟩ := hts.writable (Nat.zero_le _) u hu
  exact ⟨hw, by simpa using hd⟩

/-- The roots of patterns are exactly the sequences, run once, of trees that can be written down
within the nesting allowed, and every one of them is the root of its own text. -/
theorem roots_are_printed_back :
    (∀ t : Tree, (∃ s p, Pattern.compile s = .ok p ∧ p.root = t) ↔ t.IsPatternRoot) ∧
    ∀ t : Tree, t.IsPatternRoot → Pattern.compile t.printRoot = .ok ⟨t.printRoot, t⟩ := by
  refine ⟨fun t => ⟨?_, fun h => ?_⟩, fun t h => compile_printRoot h⟩
  · rintro ⟨s, p, hp, rfl⟩
    exact isPatternRoot_of_compile hp
  · exact ⟨t.printRoot, _, compile_printRoot h, rfl⟩

/-- A closer that is a character, in a group of the other kind, with a blank beside it. -/
theorem roots_are_printed_back_closer :
    let t : Tree := .sequence [.choice [.particle [')'] ⟨0, 1⟩, .particle [' '] ⟨1, 1⟩,
      .reference ['v'] ⟨2, 12⟩ none] ⟨1, 1⟩] ⟨1, 1⟩
    t.IsPatternRoot ∧
      t.printRoot = "[)\x7b0,1\x7d \\  $v\x7b2,12\x7d ]\x7b1,1\x7d ".toList ∧
      Pattern.compile t.printRoot = .ok ⟨t.printRoot, t⟩ := by
  intro t
  have hsmall {lo hi : Int} (h₀ : 0 ≤ lo) (h : lo ≤ hi) (hlt : hi < 100) :
      Bounds.Writable ⟨lo, hi⟩ := Bounds.writable_of_lt_hundred h₀ h hlt
  have ht : t.IsPatternRoot := by
    refine ⟨_, rfl, List.forall_mem_singleton.mpr ⟨.choice ?_ (by simp) ?_, by decide⟩⟩
    · exact hsmall (by decide) (by decide) (by decide)
    · simp only [List.forall_mem_cons]
      refine ⟨.particle ?_ fun _ => by decide, .particle ?_ fun h => absurd rfl h,
        .reference ?_ (by decide), by simp⟩
      · exact hsmall (by decide) (by decide) (by decide)
      · exact hsmall (by decide) (by decide) (by decide)
      · exact hsmall (by decide) (by decide) (by decide)
  have hprint : t.printRoot = "[)\x7b0,1\x7d \\  $v\x7b2,12\x7d ]\x7b1,1\x7d ".toList := by cbv
  exact ⟨ht, hprint, roots_are_printed_back.2 t ht⟩

end Coinage
