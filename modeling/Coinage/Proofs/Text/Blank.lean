import Coinage.Name
import Coinage.Text.Blank
import Coinage.Text.Printable
import Mathlib.Data.List.DropRight

/-!
# White space in names and shown texts

White space is not part of names, and none of it but the plain space is printable. The characters
that break a text into lines are white space.
-/

namespace Coinage

def blankCodes : List Nat :=
  [9, 10, 11, 12, 13, 28, 29, 30, 31, 32, 0x85, 0xa0, 0x1680, 0x2000, 0x2001, 0x2002, 0x2003,
    0x2004, 0x2005, 0x2006, 0x2007, 0x2008, 0x2009, 0x200a, 0x2028, 0x2029, 0x202f, 0x205f, 0x3000]

theorem toNat_mem_blankCodes {c : Char} (h : isBlank c = true) : c.toNat ∈ blankCodes := by
  by_cases hspace : c = ' '
  · subst hspace
    decide
  · simp only [isBlank, isAsciiBlank, Bool.or_eq_true, Bool.and_eq_true, decide_eq_true_eq,
      beq_iff_eq, hspace, or_false] at h
    simp only [blankCodes, List.mem_cons, List.not_mem_nil, or_false]
    omega

theorem not_isBlank_of_isNameChar {c : Char} (h : isNameChar c = true) : isBlank c = false := by
  have hcodes : ∀ n ∈ blankCodes, isNameChar (Char.ofNat n) = false := by decide +kernel
  by_contra hblank
  have hc := hcodes c.toNat (toNat_mem_blankCodes (by simpa using hblank))
  rw [Char.ofNat_toNat, h] at hc
  cases hc

theorem eq_space_of_isPrintable {c : Char} (h : isPrintable c = true) (hblank : isBlank c = true) :
    c = ' ' := by
  have hcodes : ∀ n ∈ blankCodes, isPrintable (Char.ofNat n) = true → n = 32 := by
    decide +kernel
  have hc := hcodes c.toNat (toNat_mem_blankCodes hblank) (by rwa [Char.ofNat_toNat])
  exact Char.toNat_inj.mp hc

/-- The characters at which a text is broken into lines. -/
def lineBreaks : List Char :=
  ['\n', '\x0b', '\x0c', '\r', '\x1c', '\x1d', '\x1e', '\u0085', '\u2028', '\u2029']

theorem isBlank_of_mem_lineBreaks {c : Char} (h : c ∈ lineBreaks) : isBlank c = true :=
  List.all_eq_true.mp (by decide : lineBreaks.all isBlank = true) c h

theorem trimRight_of_getLast? {p : Char → Bool} {cs : List Char}
    (h : ∀ c ∈ cs.getLast?, p c = false) : trimRight p cs = cs := by
  refine List.rdropWhile_eq_self_iff.mpr fun hne => ?_
  simp [h _ (List.getLast?_eq_some_getLast hne)]

end Coinage
