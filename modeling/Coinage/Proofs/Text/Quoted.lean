import Coinage.Text.Quoted
import Mathlib

/-!
# Quoted texts are read back

A reader takes one character at a time off the front of what stands between the quotes. It finds
the characters that were written, so a quoted text determines the text, and also where it ends. All
that is written is printable.
-/

namespace Coinage

namespace Quoted

def hexDigitValue (c : Char) : Nat := if c.toNat < 58 then c.toNat - 48 else c.toNat - 87

/-- The number that hexadecimal digits denote, highest first. -/
def hexValue (ds : List Char) : Nat := ds.foldl (fun n d => 16 * n + hexDigitValue d) 0

/-- What a backslash and the letter behind it stand for, and what is left behind them. -/
def unescape (letter : Char) (r : List Char) : Char × List Char :=
  if letter = 'x' then (Char.ofNat (hexValue (r.take 2)), r.drop 2)
  else if letter = 'u' then (Char.ofNat (hexValue (r.take 4)), r.drop 4)
  else if letter = 'U' then (Char.ofNat (hexValue (r.take 8)), r.drop 8)
  else if letter = 'n' then ('\n', r)
  else if letter = 'r' then ('\r', r)
  else if letter = 't' then ('\t', r)
  else (letter, r)

/-- The first character of a text between quotes, and what is left behind it. -/
def front? : List Char → Option (Char × List Char)
  | [] => none
  | [c] => some (c, [])
  | c :: d :: r => some (if c = '\\' then unescape d r else (c, d :: r))

@[simp] theorem hexDigit_mod (d : Nat) : hexDigit (d % 16) = hexDigit d := by
  simp [hexDigit]

@[simp] theorem hexDigitValue_hexDigit (d : Nat) : hexDigitValue (hexDigit d) = d % 16 := by
  have h : ∀ k < 16, hexDigitValue (hexDigit k) = k := by decide
  rw [← hexDigit_mod]
  exact h _ (Nat.mod_lt _ (by decide))

@[simp] theorem length_hex (width n : Nat) : (hex width n).length = width := by
  induction width generalizing n with
  | zero => rfl
  | succ width ih => simp [hex, ih]

theorem hexValue_hex (width n : Nat) : hexValue (hex width n) = n % 16 ^ width := by
  induction width generalizing n with
  | zero => simp [hex, hexValue, Nat.mod_one]
  | succ width ih =>
    have hlast : hexValue (hex (width + 1) n) = 16 * hexValue (hex width (n / 16)) + n % 16 := by
      simp [hexValue, hex]
    rw [hlast, ih, Nat.pow_succ, Nat.mul_comm (16 ^ width), Nat.mod_mul, Nat.add_comm]

/-- A code point is read back from as many digits as it needs. -/
theorem ofNat_hexValue_hex {c : Char} {width : Nat} (h : c.toNat < 16 ^ width) (r : List Char) :
    Char.ofNat (hexValue ((hex width c.toNat ++ r).take width)) = c ∧
      (hex width c.toNat ++ r).drop width = r := by
  have hlen := length_hex width c.toNat
  rw [List.take_left' hlen, List.drop_left' hlen, hexValue_hex, Nat.mod_eq_of_lt h,
    Char.ofNat_toNat]
  exact ⟨rfl, rfl⟩

def IsMark (q : Char) : Prop := q = '\'' ∨ q = '"'

@[simp] theorem isMark_mark (cs : List Char) : IsMark (mark cs) := by
  unfold mark
  split
  · exact .inr rfl
  · exact .inl rfl

/-- The ways in which a character is written between the quotes `q`. -/
inductive Escaped (q c : Char) : List Char → Prop
  | plain : c ≠ q → c ≠ '\\' → isPrintable c = true → Escaped q c [c]
  | self : c = q ∨ c = '\\' → Escaped q c ['\\', c]
  | letter {l : Char} : (c, l) ∈ [('\n', 'n'), ('\r', 'r'), ('\t', 't')] → Escaped q c ['\\', l]
  | code {l : Char} {width : Nat} : (l, width) ∈ [('x', 2), ('u', 4), ('U', 8)] →
      c.toNat < 16 ^ width → Escaped q c ('\\' :: l :: hex width c.toNat)

theorem escaped_byCodePoint (q c : Char) : Escaped q c (byCodePoint c) := by
  have hmax : c.toNat < 16 ^ 8 := by
    rcases c.valid with h | h
    · exact Nat.lt_trans h (by decide)
    · exact Nat.lt_trans h.2 (by decide)
  unfold byCodePoint
  split
  · exact .code (by decide) (by assumption)
  · split
    · exact .code (by decide) (by assumption)
    · exact .code (by decide) hmax

theorem escaped_escape (q c : Char) : Escaped q c (escape q c) := by
  by_cases hself : c = q ∨ c = '\\'
  · simpa [escape, hself] using Escaped.self hself
  obtain ⟨hq, hslash⟩ := not_or.mp hself
  rw [escape, if_neg (by simp [hq, hslash])]
  by_cases hfeed : c = '\n'
  · subst hfeed
    exact .letter (l := 'n') (by decide)
  by_cases hreturn : c = '\r'
  · subst hreturn
    exact .letter (l := 'r') (by decide)
  by_cases htab : c = '\t'
  · subst htab
    exact .letter (l := 't') (by decide)
  by_cases hprint : isPrintable c = true
  · simpa [hfeed, hreturn, htab, hprint] using Escaped.plain hq hslash hprint
  · simpa [hfeed, hreturn, htab, hprint] using escaped_byCodePoint q c

variable {q c : Char} {s : List Char}

/-- The reader takes off exactly what a character is written as. -/
theorem Escaped.front?_append (hq : IsMark q) (h : Escaped q c s) (r : List Char) :
    front? (s ++ r) = some (c, r) := by
  cases h with
  | plain _ hslash _ =>
    cases r with
    | nil => rfl
    | cons d r => simp [front?, hslash]
  | self h => obtain rfl | rfl := hq <;> obtain rfl | rfl := h <;> rfl
  | letter h =>
    simp only [List.mem_cons, Prod.mk.injEq, List.not_mem_nil, or_false] at h
    obtain ⟨rfl, rfl⟩ | ⟨rfl, rfl⟩ | ⟨rfl, rfl⟩ := h <;> rfl
  | code h hlt =>
    obtain ⟨hc, hr⟩ := ofNat_hexValue_hex hlt r
    simp only [List.mem_cons, Prod.mk.injEq, List.not_mem_nil, or_false] at h
    obtain ⟨rfl, rfl⟩ | ⟨rfl, rfl⟩ | ⟨rfl, rfl⟩ := h <;>
      simpa [front?, unescape, hr] using hc

/-- No character is written with the quote at its front. -/
theorem Escaped.head?_append_ne (hq : IsMark q) (h : Escaped q c s) (r : List Char) :
    (s ++ r).head? ≠ some q := by
  have hslash : '\\' ≠ q := by obtain rfl | rfl := hq <;> decide
  cases h with
  | plain hc => simpa using hc
  | self => simpa using hslash
  | letter => simpa using hslash
  | code => simpa using hslash

theorem isPrintable_of_mem_hex {width n : Nat} {x : Char} (h : x ∈ hex width n) :
    isPrintable x = true := by
  have hdigit : ∀ k < 16, isPrintable (hexDigit k) = true := by decide
  induction width generalizing n with
  | zero => cases h
  | succ width ih =>
    rcases List.mem_append.mp h with h | h
    · exact ih h
    · rw [List.mem_singleton.mp h, ← hexDigit_mod]
      exact hdigit _ (Nat.mod_lt _ (by decide))

theorem Escaped.isPrintable {x : Char} (hq : IsMark q) (h : Escaped q c s) (hx : x ∈ s) :
    isPrintable x = true := by
  cases h with
  | plain _ _ hc => rwa [List.mem_singleton.mp hx]
  | self h =>
    simp only [List.mem_cons, List.not_mem_nil, or_false] at hx
    obtain rfl | rfl := hx
    · decide
    · obtain rfl | rfl := hq <;> obtain rfl | rfl := h <;> decide
  | letter h =>
    have hletter : ∀ e ∈ [('\n', 'n'), ('\r', 'r'), ('\t', 't')],
        Coinage.isPrintable e.2 = true := by decide
    simp only [List.mem_cons, List.not_mem_nil, or_false] at hx
    obtain rfl | rfl := hx
    · decide
    · exact hletter _ h
  | code h =>
    have hkind : ∀ e ∈ [('x', 2), ('u', 4), ('U', 8)], Coinage.isPrintable e.1 = true := by decide
    simp only [List.mem_cons] at hx
    obtain rfl | rfl | hx := hx
    · decide
    · exact hkind _ h
    · exact isPrintable_of_mem_hex hx

/-- What stands between the quotes ends at the first quote that is no part of an escape. -/
theorem flatMap_escape_inj (hq : IsMark q) {cs ds r s : List Char}
    (h : cs.flatMap (escape q) ++ q :: r = ds.flatMap (escape q) ++ q :: s) :
    cs = ds ∧ r = s := by
  induction cs generalizing ds with
  | nil =>
    cases ds with
    | nil => exact ⟨rfl, List.tail_eq_of_cons_eq h⟩
    | cons d ds =>
      rw [List.flatMap_cons, List.append_assoc] at h
      exact absurd (congrArg List.head? h).symm ((escaped_escape q d).head?_append_ne hq _)
  | cons c cs ih =>
    rw [List.flatMap_cons, List.append_assoc] at h
    cases ds with
    | nil => exact absurd (congrArg List.head? h) ((escaped_escape q c).head?_append_ne hq _)
    | cons d ds =>
      rw [List.flatMap_cons, List.append_assoc] at h
      have hfront := congrArg front? h
      rw [(escaped_escape q c).front?_append hq, (escaped_escape q d).front?_append hq,
        Option.some_inj, Prod.mk.injEq] at hfront
      obtain ⟨rfl, htail⟩ := hfront
      obtain ⟨rfl, hr⟩ := ih htail
      exact ⟨rfl, hr⟩

end Quoted

open Quoted

/-- A quoted text determines the text, whatever stands behind it. -/
theorem quoted_append_inj {cs ds r s : List Char} (h : quoted cs ++ r = quoted ds ++ s) :
    cs = ds ∧ r = s := by
  simp only [quoted, List.cons_append, List.append_assoc, List.nil_append, List.cons.injEq] at h
  obtain ⟨hmark, h⟩ := h
  rw [hmark] at h
  exact flatMap_escape_inj (isMark_mark ds) h

/-- Whatever the text is, what is shown of it is printable. -/
theorem isPrintable_of_mem_quoted {cs : List Char} {x : Char} (h : x ∈ quoted cs) :
    isPrintable x = true := by
  have hq := isMark_mark cs
  have hmark : isPrintable (mark cs) = true := by
    obtain hq | hq := hq <;> rw [hq] <;> decide
  simp only [quoted, List.mem_cons, List.mem_append, List.not_mem_nil, or_false] at h
  obtain rfl | h | rfl := h
  · exact hmark
  · obtain ⟨c, -, hx⟩ := List.mem_flatMap.mp h
    exact (escaped_escape _ c).isPrintable hq hx
  · exact hmark

end Coinage
