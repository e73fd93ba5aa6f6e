import Coinage.Proofs.Pattern.Lexemes
import Coinage.Proofs.Text.Decimal

/-!
# Flaws of bounds

Where the reading of bounds stops, the text is split at the place of the flaw: what is in front of
it can be mended, and unless it is the end of the text, reading stops in the same way whatever text
follows. Numerals must be short for this, since one that is as long as it may be cannot be mended
if it is too small.
-/

namespace Coinage

namespace Grammar

/-- No more than 2000 digits stand in a row. -/
def ShortRuns (s : List Char) : Prop :=
  ∀ ds, ds <:+: s → (∀ d ∈ ds, isDigit d = true) → ds.length ≤ 2000

theorem ShortRuns.of_suffix {s r : List Char} (h : ShortRuns s) (hr : r <:+ s) : ShortRuns r :=
  fun ds hds => h ds (hds.trans hr.isInfix)

/-- A text that can take the place of another behind a token: it begins in the same way, or with
a space. -/
def Replaces (s r : List Char) : Prop := s.head? = some ' ' ∨ s.head? = r.head?

theorem replaces_of_ne_nil {v : List Char} (hv : v ≠ []) (s r : List Char) :
    Replaces (v ++ s) (v ++ r) := by
  cases v with
  | nil => exact absurd rfl hv
  | cons x v => exact .inr rfl

theorem replaces_append {r : List Char} (hr : r ≠ []) (w : List Char) : Replaces (r ++ w) r := by
  simpa using replaces_of_ne_nil hr w []

theorem Replaces.append {s r : List Char} (v : List Char) (h : Replaces s r) :
    Replaces (v ++ s) (v ++ r) := by
  cases v with
  | nil => exact h
  | cons x v => exact .inr rfl

/-- What a rest may not begin with, unless it is a space, its replacement does not begin with. -/
theorem Replaces.forall_head? {s r : List Char} {P : Char → Prop} (h : Replaces s r)
    (hspace : P ' ') (hr : ∀ x ∈ r.head?, P x) : ∀ x ∈ s.head?, P x := by
  rcases h with h | h
  · rw [h]
    rintro x ⟨⟩
    exact hspace
  · rw [h]
    exact hr

theorem Identifier.replace {name s r : List Char} (h : Identifier name r) (hs : Replaces s r) :
    Identifier name s :=
  ⟨h.isIdentifier, hs.forall_head? (by decide) h.maximal⟩

theorem suffix_none {r : List Char} (h : r.head? = some ' ') : Suffix r ⟨1, 1⟩ r := by
  apply Suffix.none
  · rw [h]
    decide
  · rw [h]
    decide

theorem Suffix.replace {s r : List Char} {b : Bounds} (h : Suffix s b r) :
    ∃ v, s = v ++ r ∧ ∀ r', Replaces r' r → Suffix (v ++ r') b r' := by
  cases h with
  | none h₁ h₂ =>
    refine ⟨[], rfl, fun r' hr => ?_⟩
    rcases hr with hr | hr
    · exact suffix_none hr
    · exact .none (hr ▸ h₁) (hr ▸ h₂)
  | optional => exact ⟨['?'], rfl, fun r' _ => .optional⟩
  | @braces ds es _ lo hi hlo hhi hle =>
    refine ⟨'\x7b' :: (ds ++ ',' :: (es ++ ['\x7d'])), by simp, fun r' _ => ?_⟩
    have hb : Suffix ('\x7b' :: (ds ++ ',' :: (es ++ '\x7d' :: r'))) ⟨lo, hi⟩ r' :=
      .braces hlo hhi hle
    simpa using hb

/-- What is wrong with the bounds behind a token: the part in front of the place of the flaw, the
flaw, and the rest from the place on. Bounds in the wrong order are wrong from the brace on. -/
inductive FlawedSuffix : List Char → Flaw → List Char → Prop
  | least {r : List Char} : (∀ x ∈ r.head?, isDigit x = false) →
      FlawedSuffix ['\x7b'] .badNumber r
  | comma {ds r : List Char} {lo : Nat} : Numeral ds lo → (∀ x ∈ r.head?, isDigit x = false) →
      r.head? ≠ some ',' → FlawedSuffix ('\x7b' :: ds) (.missing ',') r
  | greatest {ds r : List Char} {lo : Nat} : Numeral ds lo → (∀ x ∈ r.head?, isDigit x = false) →
      FlawedSuffix ('\x7b' :: (ds ++ [','])) .badNumber r
  | brace {ds es r : List Char} {lo hi : Nat} : Numeral ds lo → Numeral es hi →
      (∀ x ∈ r.head?, isDigit x = false) → r.head? ≠ some '\x7d' →
      FlawedSuffix ('\x7b' :: (ds ++ ',' :: es)) (.missing '\x7d') r
  | inverted {ds es r : List Char} {lo hi : Nat} : Numeral ds lo → Numeral es hi → hi < lo →
      FlawedSuffix [] (.inverted lo hi) ('\x7b' :: (ds ++ ',' :: (es ++ '\x7d' :: r)))

theorem FlawedSuffix.append {v r : List Char} {what : Flaw} (h : FlawedSuffix v what r)
    (hr : r ≠ []) (w : List Char) : FlawedSuffix v what (r ++ w) := by
  have hhead : (r ++ w).head? = r.head? := by
    obtain ⟨x, r, rfl⟩ := List.exists_cons_of_ne_nil hr
    rfl
  cases h with
  | least h => exact .least (hhead ▸ h)
  | comma hlo h hc => exact .comma hlo (hhead ▸ h) (hhead ▸ hc)
  | greatest hlo h => exact .greatest hlo (hhead ▸ h)
  | brace hlo hhi h hc => exact .brace hlo hhi (hhead ▸ h) (hhead ▸ hc)
  | @inverted ds es r lo hi hlo hhi hlt =>
    have h := FlawedSuffix.inverted (r := r ++ w) hlo hhi hlt
    simpa using h

/-- A short numeral becomes at least as great as another one if the other's digits follow. -/
theorem Numeral.exists_append {es ds : List Char} {lo : Nat} (hlo : Numeral ds lo)
    (hes : ∀ d ∈ es, isDigit d = true) (hlen : es.length + ds.length ≤ 4300) :
    ∃ hi, Numeral (es ++ ds) hi ∧ lo ≤ hi := by
  refine ⟨_, ⟨?_, List.forall_mem_append.mpr ⟨hes, hlo.digits⟩, ?_, rfl⟩, ?_⟩
  · exact List.append_ne_nil_of_right_ne_nil es hlo.nonempty
  · rwa [List.length_append]
  · rw [← hlo.value]
    exact digitsValue_le_append es ds

/-- The part of flawed bounds in front of the place of the flaw can be completed to bounds. -/
theorem FlawedSuffix.mend {v r : List Char} {what : Flaw} (h : FlawedSuffix v what r)
    (hs : ShortRuns (v ++ r)) : ∃ y b, ∀ z, z.head? = some ' ' →
      Replaces (v ++ (y ++ z)) (v ++ r) ∧ Suffix (v ++ (y ++ z)) b z := by
  -- one numeral twice is always in order
  have htwice {ds : List Char} {lo : Nat} (hlo : Numeral ds lo) (z : List Char) :
      Suffix ('\x7b' :: (ds ++ ',' :: (ds ++ '\x7d' :: z))) ⟨lo, lo⟩ z :=
    .braces hlo hlo (Nat.le_refl lo)
  cases h with
  | least =>
    have hone : Numeral ['1'] 1 :=
      ⟨by decide, List.forall_mem_singleton.mpr (by decide), by decide, by decide⟩
    exact ⟨['1', ',', '1', '\x7d'], _, fun z _ => ⟨.inr rfl, htwice hone z⟩⟩
  | @comma ds _ lo hlo =>
    refine ⟨',' :: (ds ++ ['\x7d']), ⟨lo, lo⟩, fun z _ => ⟨.inr rfl, ?_⟩⟩
    simpa using htwice hlo z
  | @greatest ds _ lo hlo =>
    refine ⟨ds ++ ['\x7d'], ⟨lo, lo⟩, fun z _ => ⟨.inr rfl, ?_⟩⟩
    simpa using htwice hlo z
  | @brace ds es r lo hi hlo hhi =>
    have hds : ds.length ≤ 2000 :=
      hs ds ⟨['\x7b'], ',' :: (es ++ r), by simp⟩ hlo.digits
    have hes : es.length ≤ 2000 :=
      hs es ⟨'\x7b' :: (ds ++ [',']), r, by simp⟩ hhi.digits
    obtain ⟨top, htop, hle⟩ := hlo.exists_append hhi.digits (by omega)
    refine ⟨ds ++ ['\x7d'], ⟨lo, top⟩, fun z _ => ⟨.inr rfl, ?_⟩⟩
    have hb : Suffix ('\x7b' :: (ds ++ ',' :: ((es ++ ds) ++ '\x7d' :: z))) ⟨lo, top⟩ z :=
      .braces hlo htop hle
    simpa using hb
  | inverted =>
    -- in front of the brace there is nothing to be mended
    exact ⟨[], ⟨1, 1⟩, fun z hz => ⟨.inl hz, suffix_none hz⟩⟩

/-- More digits in a row than a numeral may have, in front of the rest. -/
structure Overlong (ds r : List Char) : Prop where
  digits : ∀ d ∈ ds, isDigit d = true
  maximal : ∀ x ∈ r.head?, isDigit x = false
  long : 4300 < ds.length

theorem ShortRuns.not_overlong {s ds r : List Char} (hs : ShortRuns s) (hr : ds <:+: s) :
    ¬Overlong ds r := fun h => by
  have hshort := hs ds hr h.digits
  have hlong := h.long
  omega

/-- The part of bounds behind which a numeral has to stand. -/
inductive AwaitsNumeral : List Char → Prop
  | least : AwaitsNumeral ['\x7b']
  | greatest {ds : List Char} {lo : Nat} : Numeral ds lo →
      AwaitsNumeral ('\x7b' :: (ds ++ [',']))

theorem AwaitsNumeral.flawedSuffix {v r : List Char} (h : AwaitsNumeral v)
    (hr : ∀ x ∈ r.head?, isDigit x = false) : FlawedSuffix v .badNumber r := by
  cases h with
  | least => exact .least hr
  | greatest hlo => exact .greatest hlo hr

theorem FlawedSuffix.awaitsNumeral {v r : List Char} (h : FlawedSuffix v .badNumber r) :
    AwaitsNumeral v := by
  cases h with
  | least => exact .least
  | greatest hlo => exact .greatest hlo

end Grammar

namespace Scan

open Grammar

/-- A number that is missing is noticed at once, and one that is too long behind its last digit. -/
theorem integer_eq_error {c c' : Cursor} {e : Stop} : integer c = .error e c' ↔
    (∀ x ∈ c.rest.head?, isDigit x = false) ∧ e = .flaw .badNumber c.pos ∧ c' = c ∨
      ∃ ds r, c.rest = ds ++ r ∧ Overlong ds r ∧ e = .digits ds.length ∧
        c' = ⟨c.pos + ds.length, r⟩ := by
  constructor
  · intro h
    obtain ⟨r, hr, hds, hstop⟩ := takeWhile_eq_iff.mp (rfl : c.rest.takeWhile isDigit = _)
    simp only [integer] at h
    split at h
    · rename_i hnil
      cases h
      rw [hnil] at hr
      exact .inl ⟨hr ▸ hstop, rfl, rfl⟩
    · split at h
      · cases h
      · rename_i hlong
        cases h
        exact .inr ⟨_, r, hr, ⟨hds, hstop, Nat.lt_of_not_le hlong⟩, rfl, Cursor.skip_append hr⟩
  · rintro (⟨hr, rfl, rfl⟩ | ⟨ds, r, hs, hlong, rfl, rfl⟩)
    · have hds : c'.rest.takeWhile isDigit = [] :=
        takeWhile_eq_iff.mpr ⟨c'.rest, rfl, by simp, hr⟩
      simp [integer, hds]
    · have hds : c.rest.takeWhile isDigit = ds :=
        takeWhile_eq_iff.mpr ⟨r, hs, hlong.digits, hlong.maximal⟩
      have hlt : maxDigits < ds.length := hlong.long
      have hne : ds ≠ [] := List.ne_nil_of_length_pos (Nat.zero_lt_of_lt hlt)
      simp only [integer, hds, if_neg hne, if_neg (Nat.not_le_of_lt hlt), Cursor.skip_append hs]

theorem stops_integer_of_no_digit {c : Cursor} (h : ∀ x ∈ c.rest.head?, isDigit x = false) :
    Stops integer c (.flaw .badNumber c.pos) :=
  ⟨c, integer_eq_error.mpr (.inl ⟨h, rfl, rfl⟩)⟩

theorem stops_integer_of_overlong {c : Cursor} {ds r : List Char} (hc : c.rest = ds ++ r)
    (hds : ∀ x ∈ ds, isDigit x = true) (hr : ∀ x ∈ r.head?, isDigit x = false)
    (hlen : maxDigits < ds.length) : Stops integer c (.digits ds.length) :=
  ⟨_, integer_eq_error.mpr (.inr ⟨ds, r, hc, ⟨hds, hr, hlen⟩, rfl, rfl⟩)⟩

/-- The reading of a number stops at once, or behind too many digits. -/
theorem stops_integer_cases {c : Cursor} {e : Stop} (h : Stops integer c e) :
    (∀ x ∈ c.rest.head?, isDigit x = false) ∧ e = .flaw .badNumber c.pos ∨
      ∃ ds r, c.rest = ds ++ r ∧ Overlong ds r ∧ e = .digits ds.length := by
  obtain ⟨d, h⟩ := h
  rcases integer_eq_error.mp h with ⟨hr, he, -⟩ | ⟨ds, r, hs, hlong, he, -⟩
  · exact .inl ⟨hr, he⟩
  · exact .inr ⟨ds, r, hs, hlong, he⟩

/-- Only an opening brace can be followed by something else than bounds. -/
theorem bounds_eq_error {c c' : Cursor} {e : Stop} : bounds c = .error e c' ↔
    ∃ s, c.rest = '\x7b' :: s ∧ braced c.pos ⟨c.pos + 1, s⟩ = .error e c' := by
  obtain ⟨pos, rest⟩ := c
  unfold bounds
  split
  · rename_i hs
    simp only at hs
    simp [hs]
  · rename_i s hs
    simp only at hs
    simp [hs, Cursor.skip]
  · rename_i h
    simp_all

theorem stops_bounds {c : Cursor} {e : Stop} :
    Stops bounds c e ↔ ∃ s, c.rest = '\x7b' :: s ∧ Stops (braced c.pos) ⟨c.pos + 1, s⟩ e := by
  simp only [Stops, bounds_eq_error]
  constructor
  · rintro ⟨d, s, hs, h⟩
    exact ⟨s, hs, d, h⟩
  · rintro ⟨s, hs, d, h⟩
    exact ⟨d, s, hs, h⟩

/-- Where the reading of bounds stops, the bounds are flawed, and it stops at the place of the flaw,
or a numeral in them is too long. The text is taken apart in the order of reading, one piece before
each place to stop at. -/
theorem stops_bounds_cases {c : Cursor} {e : Stop} (h : Stops bounds c e) :
    (∃ v what r, c.rest = v ++ r ∧ e = .flaw what (c.pos + v.length) ∧ FlawedSuffix v what r) ∨
      ∃ v ds r, c.rest = v ++ (ds ++ r) ∧ e = .digits ds.length ∧ AwaitsNumeral v ∧
        Overlong ds r := by
  obtain ⟨s, hc, h⟩ := stops_bounds.mp h
  simp only [braced, stops_bind, integer_eq_ok, stops_expect, expect_eq_ok] at h
  rcases h with h | ⟨lo, c₁, ⟨ds, r₁, h₁, hlo, hr₁, rfl⟩, h⟩
  · rcases stops_integer_cases h with ⟨hr, rfl⟩ | ⟨ds, r, hs, hlong, rfl⟩
    · exact .inl ⟨_, _, s, hc, rfl, .least hr⟩
    · exact .inr ⟨_, ds, r, hs ▸ hc, rfl, .least, hlong⟩
  subst h₁
  rcases h with ⟨hr, rfl⟩ | ⟨_, c₂, ⟨r₂, h₂, rfl⟩, h⟩
  · refine .inl ⟨_, _, r₁, hc, congrArg (Stop.flaw _) ?_, .comma hlo hr₁ hr⟩
    simp only [List.length_cons]
    omega
  simp only at h₂
  subst h₂
  rcases h with h | ⟨hi, c₃, ⟨es, r₃, h₃, hhi, hr₃, rfl⟩, h⟩
  · rcases stops_integer_cases h with ⟨hr, rfl⟩ | ⟨es, r, hs, hlong, rfl⟩
    · refine .inl ⟨_, _, r₂, by simp [hc], congrArg (Stop.flaw _) ?_, .greatest hlo hr⟩
      simp only [List.length_cons, List.length_append, List.length_nil]
      omega
    · simp only at hs
      subst hs
      exact .inr ⟨_, es, r, by simp [hc], rfl, .greatest hlo, hlong⟩
  simp only at h₃
  subst h₃
  rcases h with ⟨hr, rfl⟩ | ⟨_, c₄, ⟨r₄, h₄, rfl⟩, h⟩
  · refine .inl ⟨_, _, r₃, by simp [hc], congrArg (Stop.flaw _) ?_, .brace hlo hhi hr₃ hr⟩
    simp only [List.length_cons, List.length_append]
    omega
  simp only at h₄
  subst h₄
  split at h
  · obtain ⟨d, h⟩ := h
    cases h
    exact .inl ⟨[], _, _, hc, rfl, .inverted hlo hhi ‹_›⟩
  · obtain ⟨d, h⟩ := h
    cases h

/-- Where all runs of digits are short, reading stops for a flaw only. -/
theorem flawedSuffix_of_stops {c : Cursor} {e : Stop} (hs : ShortRuns c.rest)
    (h : Stops bounds c e) : ∃ v what r, c.rest = v ++ r ∧ e = .flaw what (c.pos + v.length) ∧
      FlawedSuffix v what r := by
  rcases stops_bounds_cases h with h | ⟨v, ds, r, hc, -, -, hlong⟩
  · exact h
  · exact absurd hlong (hs.not_overlong ⟨v, r, by simp [hc]⟩)

/-- Behind the part of bounds that awaits a numeral, one that is too long is refused. -/
theorem stops_of_awaitsNumeral {c : Cursor} {v ds r : List Char} (h : AwaitsNumeral v)
    (hlong : Overlong ds r) (hc : c.rest = v ++ (ds ++ r)) :
    Stops bounds c (.digits ds.length) := by
  have hstop {d : Cursor} (hd : d.rest = ds ++ r) : Stops integer d (.digits ds.length) :=
    stops_integer_of_overlong hd hlong.digits hlong.maximal hlong.long
  cases h with
  | least => exact stops_bounds.mpr ⟨ds ++ r, hc, stops_bind.mpr (.inl (hstop rfl))⟩
  | @greatest es lo hlo =>
    refine stops_bounds.mpr ⟨es ++ ',' :: (ds ++ r), by simpa using hc, ?_⟩
    simp only [braced, stops_bind, integer_eq_ok, expect_eq_ok]
    exact .inr ⟨lo, _, ⟨es, _, rfl, hlo, no_digit_head rfl _, rfl⟩, .inr ⟨(), _, ⟨_, rfl, rfl⟩,
      .inl (hstop rfl)⟩⟩

/-- At flawed bounds reading stops, however long the numerals in the rest are. -/
theorem stops_of_flawedSuffix {c : Cursor} {v r : List Char} {what : Flaw}
    (h : FlawedSuffix v what r) (hc : c.rest = v ++ r) :
    Stops bounds c (.flaw what (c.pos + v.length)) := by
  cases h with
  | least hr =>
    refine stops_bounds.mpr ⟨r, hc, stops_bind.mpr (.inl ?_)⟩
    exact stops_integer_of_no_digit hr
  | @comma ds _ lo hlo hd hr =>
    refine stops_bounds.mpr ⟨ds ++ r, hc, ?_⟩
    simp only [braced, stops_bind, integer_eq_ok, stops_expect]
    refine .inr ⟨lo, _, ⟨ds, r, rfl, hlo, hd, rfl⟩, .inl ⟨hr, congrArg (Stop.flaw _) ?_⟩⟩
    simp only [List.length_cons]
    omega
  | @greatest ds _ lo hlo hr =>
    refine stops_bounds.mpr ⟨ds ++ ',' :: r, by simpa using hc, ?_⟩
    have hp : c.pos + ('\x7b' :: (ds ++ [','])).length = c.pos + 1 + ds.length + 1 := by
      simp only [List.length_cons, List.length_append, List.length_nil]
      omega
    rw [hp]
    simp only [braced, stops_bind, integer_eq_ok, expect_eq_ok]
    exact .inr ⟨lo, _, ⟨ds, _, rfl, hlo, no_digit_head rfl r, rfl⟩, .inr ⟨(), _, ⟨r, rfl, rfl⟩,
      .inl (stops_integer_of_no_digit hr)⟩⟩
  | @brace ds es _ lo hi hlo hhi hd hr =>
    refine stops_bounds.mpr ⟨ds ++ ',' :: (es ++ r), by simpa using hc, ?_⟩
    simp only [braced, stops_bind, integer_eq_ok, stops_expect, expect_eq_ok]
    refine .inr ⟨lo, _, ⟨ds, _, rfl, hlo, no_digit_head rfl _, rfl⟩, .inr ⟨(), _, ⟨_, rfl, rfl⟩,
      .inr ⟨hi, _, ⟨es, r, rfl, hhi, hd, rfl⟩, .inl ⟨hr, congrArg (Stop.flaw _) ?_⟩⟩⟩⟩
    simp only [List.length_cons, List.length_append]
    omega
  | @inverted ds es r lo hi hlo hhi hlt =>
    refine stops_bounds.mpr ⟨_, hc, ?_⟩
    simp only [braced, stops_bind, integer_eq_ok, expect_eq_ok]
    refine .inr ⟨lo, _, ⟨ds, _, rfl, hlo, no_digit_head rfl _, rfl⟩, .inr ⟨(), _, ⟨_, rfl, rfl⟩,
      .inr ⟨hi, _, ⟨es, _, rfl, hhi, no_digit_head rfl r, rfl⟩, .inr ⟨(), _, ⟨r, rfl, rfl⟩, ?_⟩⟩⟩⟩
    rw [if_pos hlt]
    exact ⟨_, rfl⟩

/-- Flaws of bounds in front of the end remain what they are whatever text follows. -/
theorem Stops.bounds_append {c : Cursor} {what : Flaw} {p : Nat} (hs : ShortRuns c.rest)
    (h : Stops bounds c (.flaw what p)) (hp : p < c.endPos) (w : List Char) :
    Stops bounds ⟨c.pos, c.rest ++ w⟩ (.flaw what p) := by
  obtain ⟨v, _, r, hc, he, hf⟩ := flawedSuffix_of_stops hs h
  cases he
  have hr : r ≠ [] := by
    rintro rfl
    simp [Cursor.endPos, hc] at hp
  exact stops_of_flawedSuffix (hf.append hr w) (by simp [hc])

end Scan

end Coinage
