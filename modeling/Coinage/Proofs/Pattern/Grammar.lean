import Coinage.Tree

/-!
# The grammar of patterns

Which texts are patterns, and which trees they stand for, stated without any reader. A relation
holds between a text, what its first part stands for, and what is left of the text: a suffix or an
identifier ends where it does because of what follows, so the rest belongs to the rule.
-/

namespace Coinage

namespace Grammar

def Gap (w : List Char) : Prop := ∀ c ∈ w, c = ' ' ∨ c = '\t'

@[simp] theorem gap_nil : Gap [] := by simp [Gap]

@[simp] theorem gap_space : Gap [' '] := by simp [Gap]

theorem Gap.append {v w : List Char} (hv : Gap v) (hw : Gap w) : Gap (v ++ w) :=
  List.forall_mem_append.mpr ⟨hv, hw⟩

/-- A numeral: between one and 4300 digits of any scripts, and the number they denote. -/
structure Numeral (ds : List Char) (n : Nat) : Prop where
  nonempty : ds ≠ []
  digits : ∀ d ∈ ds, isDigit d = true
  short : ds.length ≤ 4300
  value : digitsValue ds = n

/-- The identifier in front of the rest `r`. It is as long as it can be. -/
structure Identifier (name r : List Char) : Prop where
  isIdentifier : isIdentifier name = true
  maximal : ∀ c ∈ r.head?, isNameChar c = false

/-- The bounds in front of the rest. Behind a token a question mark or an opening brace is always
the beginning of its bounds. -/
inductive Suffix : List Char → Bounds → List Char → Prop
  | none {r : List Char} : r.head? ≠ some '?' → r.head? ≠ some '\x7b' → Suffix r ⟨1, 1⟩ r
  | optional {r : List Char} : Suffix ('?' :: r) ⟨0, 1⟩ r
  | braces {ds es r : List Char} {lo hi : Nat} : Numeral ds lo → Numeral es hi → lo ≤ hi →
      Suffix ('\x7b' :: (ds ++ ',' :: (es ++ '\x7d' :: r))) ⟨lo, hi⟩ r

theorem Suffix.length_le {s r : List Char} {b : Bounds} (h : Suffix s b r) :
    r.length ≤ s.length := by
  cases h with
  | none => exact Nat.le_refl _
  | optional => simp
  | braces =>
    simp only [List.length_cons, List.length_append]
    omega

/-- A character that stands for itself where `closers` would close the open groups, innermost
first. Of these only the first has a meaning. -/
structure Plain (closers : List Char) (c : Char) : Prop where
  not_special : c ∉ ['\\', '[', '(', '$', ' ', '\t']
  not_closer : closers.head? ≠ some c

/-- The tokens in front of the rest, and the nodes they stand for, where `closers` would close the
open groups, innermost first. They go on up to the closer of the innermost group, or up to the end
of the text if no group is open. -/
inductive Tokens : List Char → List Char → List Tree → List Char → Prop
  | nothing {closers w r : List Char} : Gap w → r.head? = closers.head? →
      Tokens closers (w ++ r) [] r
  | escaped {closers w s r : List Char} {c : Char} {ts : List Tree} : Gap w →
      Tokens closers s ts r →
      Tokens closers (w ++ '\\' :: c :: s) (.particle [c] ⟨1, 1⟩ :: ts) r
  | choice {closers w s s₁ s₂ r : List Char} {u : Tree} {us ts : List Tree} {b : Bounds} :
      Gap w → closers.length < 100 → Tokens (']' :: closers) s (u :: us) (']' :: s₁) →
      Suffix s₁ b s₂ → Tokens closers s₂ ts r →
      Tokens closers (w ++ '[' :: s) (.choice (u :: us) b :: ts) r
  | sequence {closers w s s₁ s₂ r : List Char} {us ts : List Tree} {b : Bounds} :
      Gap w → closers.length < 100 → Tokens (')' :: closers) s us (')' :: s₁) →
      Suffix s₁ b s₂ → Tokens closers s₂ ts r →
      Tokens closers (w ++ '(' :: s) (.sequence us b :: ts) r
  | reference {closers w name s s₁ r : List Char} {ts : List Tree} {b : Bounds} :
      Gap w → Identifier name s → Suffix s b s₁ → Tokens closers s₁ ts r →
      Tokens closers (w ++ '$' :: (name ++ s)) (.reference name b none :: ts) r
  | plain {closers w s s₁ r : List Char} {c : Char} {ts : List Tree} {b : Bounds} :
      Gap w → Plain closers c → Suffix s b s₁ → Tokens closers s₁ ts r →
      Tokens closers (w ++ c :: s) (.particle [c] b :: ts) r

/-- A gap in front of tokens changes nothing. -/
theorem Tokens.of_gap {closers s r w : List Char} {ts : List Tree} (hw : Gap w)
    (h : Tokens closers s ts r) : Tokens closers (w ++ s) ts r := by
  cases h with
  | nothing hv hr =>
    rw [← List.append_assoc]
    exact .nothing (hw.append hv) hr
  | escaped hv hts =>
    rw [← List.append_assoc]
    exact .escaped (hw.append hv) hts
  | choice hv hd hus hb hts =>
    rw [← List.append_assoc]
    exact .choice (hw.append hv) hd hus hb hts
  | sequence hv hd hus hb hts =>
    rw [← List.append_assoc]
    exact .sequence (hw.append hv) hd hus hb hts
  | reference hv hn hb hts =>
    rw [← List.append_assoc]
    exact .reference (hw.append hv) hn hb hts
  | plain hv hc hb hts =>
    rw [← List.append_assoc]
    exact .plain (hw.append hv) hc hb hts

/-- The text is a pattern and stands for the tree: its tokens, up to the end, make up a sequence
that is run once. -/
def Derives (s : List Char) (t : Tree) : Prop :=
  ∃ ts, Tokens [] s ts [] ∧ t = .sequence ts ⟨1, 1⟩

end Grammar

end Coinage
