import Coinage.Proofs.Text.Decimal
import Coinage.Seed
import Mathlib.Data.List.TakeWhile

/-!
# Numerals in arguments are read back

However an integer is spelled in an argument, it has at most as many digits as a numeral may have.
So its canonical numeral may be read too, which gives the integer back; and as a seed the numeral is
never taken for a word that asks for a fresh one.
-/

namespace Coinage

/-- The digits of canonical numerals are among the first 128 characters. -/
theorem isDigit_char_of_mem_decimal {n : Nat} {c : Char} (h : c ∈ decimal n) :
    c.isDigit = true := by
  obtain ⟨d, rfl⟩ := exists_digitChar_of_mem_decimal h
  have hdigits : ∀ k < 10, (Char.ofNat (48 + k)).isDigit = true := by decide
  exact hdigits (d % 10) (Nat.mod_lt _ (by decide))

theorem toNat_of_isDigit {c : Char} (h : c.isDigit = true) : 48 ≤ c.toNat ∧ c.toNat ≤ 57 := by
  simp only [Char.isDigit, Bool.and_eq_true, decide_eq_true_eq] at h
  exact h

namespace Numeral

theorem digitRun_of_isDigit {ds : List Char} (h : ∀ c ∈ ds, c.isDigit = true) (behind : Bool) :
    digitRun behind ds = some (ds, []) := by
  induction ds generalizing behind with
  | nil => cases behind <;> rfl
  | cons c ds ih =>
    have hc : c.isDigit = true := h c List.mem_cons_self
    rw [digitRun, if_pos hc, ih (fun d hd => h d (List.mem_cons_of_mem c hd)), Option.map_some]
    rintro rfl
    exact absurd hc (by decide)

theorem asciiForm_of_lt {cs : List Char} (h : ∀ c ∈ cs, c.toNat < 128) : asciiForm cs = some cs :=
  if_pos (by simpa [List.all_eq_true] using h)

end Numeral

theorem natAbs_of_readInteger {cs : List Char} {i : Int} (h : readInteger cs = .ok i) :
    i.natAbs < tenTo maxDigits := by
  simp only [readInteger] at h
  split at h
  · cases h
  · split at h
    · cases h
    · rename_i ds rest hrun
      split at h
      · cases h
      · rename_i hlength
        split at h
        · cases h
        · have hlt : digitsValue ds < tenTo maxDigits :=
            Nat.lt_of_lt_of_le (digitsValue_lt ds) (tenTo_le_tenTo (Nat.not_lt.mp hlength))
          simp only [Except.ok.injEq] at h
          split at h <;> omega

theorem eq_or_isDigit_of_mem_signedDecimal {i : Int} {c : Char} (h : c ∈ signedDecimal i) :
    c = '-' ∨ c.isDigit = true := by
  simp only [signedDecimal] at h
  split at h
  · obtain rfl | hc := List.mem_cons.mp h
    · exact .inl rfl
    · exact .inr (isDigit_char_of_mem_decimal hc)
  · exact .inr (isDigit_char_of_mem_decimal h)

@[simp] theorem signedDecimal_ne_nil (i : Int) : signedDecimal i ≠ [] := by
  simp only [signedDecimal]
  split
  · exact List.cons_ne_nil _ _
  · exact decimal_ne_nil _

namespace Numeral

@[simp] theorem asciiForm_signedDecimal (i : Int) :
    asciiForm (signedDecimal i) = some (signedDecimal i) := by
  refine asciiForm_of_lt fun c hc => ?_
  obtain rfl | hdigit := eq_or_isDigit_of_mem_signedDecimal hc
  · decide
  · exact Nat.lt_of_le_of_lt (toNat_of_isDigit hdigit).2 (by decide)

theorem not_isAsciiBlank_of_mem_signedDecimal {i : Int} {c : Char} (h : c ∈ signedDecimal i) :
    ¬isAsciiBlank c = true := by
  simp only [isAsciiBlank, Bool.or_eq_true, Bool.and_eq_true, decide_eq_true_eq, beq_iff_eq]
  obtain rfl | hdigit := eq_or_isDigit_of_mem_signedDecimal h
  · decide
  · rintro (hctrl | rfl)
    · have hc := toNat_of_isDigit hdigit
      omega
    · exact absurd hdigit (by decide)

@[simp] theorem sign_of_isDigit {c : Char} (h : c.isDigit = true) (cs : List Char) :
    sign (c :: cs) = (false, c :: cs) := by
  rw [sign]
  · rintro _ ⟨rfl, -⟩
    exact absurd h (by decide)
  · rintro _ ⟨rfl, -⟩
    exact absurd h (by decide)

@[simp] theorem sign_signedDecimal (i : Int) :
    sign ((signedDecimal i).dropWhile isAsciiBlank) = (decide (i < 0), decimal i.natAbs) := by
  have hdrop : (signedDecimal i).dropWhile isAsciiBlank = signedDecimal i := by
    rw [List.dropWhile_eq_self_iff]
    exact fun hlength => not_isAsciiBlank_of_mem_signedDecimal (List.getElem_mem hlength)
  rw [hdrop, signedDecimal]
  split
  · rename_i hi
    rw [decide_eq_true hi]
    rfl
  · rename_i hi
    rw [decide_eq_false hi]
    cases hd : decimal i.natAbs with
    | nil => exact absurd hd (decimal_ne_nil _)
    | cons c ds =>
      exact sign_of_isDigit (isDigit_char_of_mem_decimal (hd ▸ List.mem_cons_self)) ds

end Numeral

/-- The canonical numeral of an integer is read as the integer, unless it is too long. -/
@[simp] theorem readInteger_signedDecimal {i : Int} (h : (decimal i.natAbs).length ≤ maxDigits) :
    readInteger (signedDecimal i) = .ok i := by
  have hrun : Numeral.digitRun false (decimal i.natAbs) = some (decimal i.natAbs, []) :=
    Numeral.digitRun_of_isDigit (fun c hc => isDigit_char_of_mem_decimal hc) false
  simp only [readInteger, Numeral.asciiForm_signedDecimal, Numeral.sign_signedDecimal, hrun]
  rw [if_neg (Nat.not_lt.mpr h), if_neg (by simp), digitsValue_decimal]
  split
  · rename_i hi
    rw [decide_eq_true_eq] at hi
    rw [show -(i.natAbs : Int) = i by omega]
  · rename_i hi
    rw [decide_eq_true_eq] at hi
    rw [show (i.natAbs : Int) = i by omega]

namespace Seed

@[simp] theorem lowerAscii_of_isDigit {c : Char} (h : c.isDigit = true) : lowerAscii c = c := by
  refine dif_neg fun hupper => ?_
  have hle : 65 ≤ c.toNat := hupper.1
  have hc := toNat_of_isDigit h
  omega

/-- Words that ask for a fresh seed begin with a letter. -/
@[simp] theorem not_fresh_signedDecimal (i : Int) :
    freshSeedWords.contains ((signedDecimal i).map lowerAscii) = false := by
  cases hi : signedDecimal i with
  | nil => exact absurd hi (signedDecimal_ne_nil i)
  | cons c cs =>
    have hc : lowerAscii c ≠ 'a' ∧ lowerAscii c ≠ 'r' ∧ lowerAscii c ≠ 'e' := by
      obtain rfl | hdigit := eq_or_isDigit_of_mem_signedDecimal (hi ▸ List.mem_cons_self)
      · decide
      · rw [lowerAscii_of_isDigit hdigit]
        refine ⟨?_, ?_, ?_⟩ <;> rintro rfl <;> exact absurd hdigit (by decide)
    simp [freshSeedWords, hc]

/-- The canonical numeral of an integer is read as the seed that it denotes. -/
@[simp] theorem read_signedDecimal {i : Int} (h : (decimal i.natAbs).length ≤ maxDigits) :
    read (signedDecimal i) = .ok (.fixed i) := by
  rw [read, if_neg (by rw [not_fresh_signedDecimal]; decide), readInteger_signedDecimal h]
  rfl

/-- Whatever text a seed is read from, its canonical numeral is not too long. -/
theorem length_decimal_of_read {text : List Char} {i : Int} (h : read text = .ok (.fixed i)) :
    (decimal i.natAbs).length ≤ maxDigits := by
  simp only [read] at h
  split at h
  · cases h
  · cases hread : readInteger text with
    | error e => simp [hread] at h
    | ok j =>
      rw [hread] at h
      cases h
      exact length_decimal_le (by decide) (natAbs_of_readInteger hread)

end Seed

end Coinage
