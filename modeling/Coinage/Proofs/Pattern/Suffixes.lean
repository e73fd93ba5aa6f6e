import Coinage.Proofs.Pattern.Printed
import Coinage.Proofs.Text.Digit

/-!
# Suffixes are read back

Behind a token its bounds are read from their suffix, in front of every text that does not make the
empty suffix a longer one. Whatever else is read as bounds says the same in other words: its numbers
may have digits of any scripts, and zeros in front of them.
-/

namespace Coinage

open Grammar

namespace Bounds

/-- What stands for bounds behind a token: nothing, a question mark, or two numbers in braces. -/
inductive SaidBy : Bounds → List Char → Prop
  | nothing : SaidBy ⟨1, 1⟩ []
  | mark : SaidBy ⟨0, 1⟩ ['?']
  | braces {ds es : List Char} {lo hi : Nat} : Digits ds lo → Digits es hi →
      SaidBy ⟨lo, hi⟩ ('\x7b' :: (ds ++ ',' :: (es ++ ['\x7d'])))

/-- A text in front of which the empty suffix stays empty. -/
def EndsSuffix (r : List Char) : Prop := r.head? ≠ some '?' ∧ r.head? ≠ some '\x7b'

theorem Writable.suffix_append {b : Bounds} (h : b.Writable) {r : List Char}
    (hr : b = once → EndsSuffix r) : Suffix (b.suffix ++ r) b r := by
  by_cases honce : b = once
  · obtain ⟨hmark, hbrace⟩ := hr honce
    subst honce
    exact .none hmark hbrace
  · by_cases hoptional : b = optional
    · subst hoptional
      exact .optional
    · simpa [Bounds.suffix, honce, hoptional, print] using h.suffix r

end Bounds

theorem Grammar.Numeral.digits_of {ds : List Char} {n : Nat} (h : Numeral ds n) : Digits ds n :=
  h.value ▸ digits_digitsValue h.nonempty h.digits

/-- What a suffix takes up of a text says the bounds. -/
theorem Grammar.Suffix.exists_saidBy {s r : List Char} {b : Bounds} (h : Suffix s b r) :
    ∃ v, s = v ++ r ∧ b.SaidBy v := by
  cases h with
  | none => exact ⟨[], rfl, .nothing⟩
  | optional => exact ⟨['?'], rfl, .mark⟩
  | braces hlo hhi _ => exact ⟨_, by simp, .braces hlo.digits_of hhi.digits_of⟩

/-- Suffixes are read back. Bounds that can be written are read from their suffix, whatever stands
behind it, except that something that is no suffix has to stand behind the empty one; and reading
stops right behind the suffix. In turn, what is read as bounds, at any place of any text, says the
bounds, and these can be written. -/
theorem suffixes_are_read_back :
    (∀ (b : Bounds) (r : List Char), b.Writable → (b = .once → Bounds.EndsSuffix r) →
      Scan.bounds (.start (b.suffix ++ r)) = .ok b ⟨b.suffix.length, r⟩) ∧
    ∀ (c c' : Cursor) (b : Bounds), Scan.bounds c = .ok b c' →
      b.Writable ∧ ∃ v, c.rest = v ++ c'.rest ∧ c'.pos = c.pos + v.length ∧ b.SaidBy v := by
  refine ⟨fun b r hb hr => ?_, fun c c' b h => ?_⟩
  · refine Scan.bounds_eq_ok.mpr ⟨hb.suffix_append hr, ?_⟩
    simp [Cursor.start]
  · obtain ⟨hsuffix, hend⟩ := Scan.bounds_eq_ok.mp h
    obtain ⟨v, hv, hsaid⟩ := hsuffix.exists_saidBy
    refine ⟨hsuffix.writable, v, hv, ?_, hsaid⟩
    simp only [Cursor.endPos, hv, List.length_append] at hend
    omega

/-- Bounds with both numbers written out, in front of another question mark, and bounds with digits
of two scripts and zeros in front. -/
theorem suffixes_are_read_back_arabic :
    Scan.bounds (.start "\x7b2,12\x7d?".toList) = .ok ⟨2, 12⟩ ⟨6, ['?']⟩ ∧
      Scan.bounds (.start "?\x7b".toList) = .ok .optional ⟨1, ['\x7b']⟩ ∧
      Scan.bounds ⟨1, "\x7b002,٠1٢\x7da".toList⟩ = .ok ⟨2, 12⟩ ⟨10, ['a']⟩ ∧
      Bounds.SaidBy ⟨2, 12⟩ "\x7b002,٠1٢\x7d".toList := by
  obtain ⟨hwritten, hread⟩ := suffixes_are_read_back
  have hwide : Bounds.Writable ⟨2, 12⟩ :=
    Bounds.writable_of_lt_hundred (by decide) (by decide) (by decide)
  have hoptional : Bounds.Writable .optional :=
    Bounds.writable_of_lt_hundred (by decide) (by decide) (by decide)
  have hscan : Scan.bounds ⟨1, "\x7b002,٠1٢\x7da".toList⟩ = .ok ⟨2, 12⟩ ⟨10, ['a']⟩ := by rfl
  have hsuffix : Bounds.suffix ⟨2, 12⟩ = "\x7b2,12\x7d".toList := by cbv
  have hfront := hwritten ⟨2, 12⟩ ['?'] hwide (fun h => absurd h (by decide))
  rw [hsuffix] at hfront
  obtain ⟨-, v, hv, -, hsaid⟩ := hread _ _ _ hscan
  obtain rfl : v = "\x7b002,٠1٢\x7d".toList := List.append_cancel_right hv.symm
  exact ⟨hfront, hwritten .optional ['\x7b'] hoptional (fun h => absurd h (by decide)), hscan,
    hsaid⟩

end Coinage
