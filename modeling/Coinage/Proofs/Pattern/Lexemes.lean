import Coinage.Pattern.Lexeme
import Coinage.Proofs.Pattern.Scanning

/-!
# The first lexeme of a text

The reader of lexemes takes one lexeme off the front of a text and goes on behind it. What a first
lexeme is, is stated here in terms of the grammar; the reader finds exactly the lexemes that there
are, and otherwise has come to the end or stops.
-/

namespace Coinage

open Grammar

def GroupKind.opener : GroupKind → Char
  | .choice => '['
  | .sequence => '('

@[simp] theorem isGap_iff {c : Char} : isGap c = true ↔ c = ' ' ∨ c = '\t' := by
  simp [isGap]

theorem isGap_of_special {x : Char} {s : List Char} (hx : x ∉ ['\\', '[', '(', '$', ' ', '\t']) :
    ∀ y ∈ (x :: s).head?, isGap y = false := by
  rintro y ⟨⟩
  simp_all [isGap]

namespace Cursor

theorem skipGap_of_gap {c : Cursor} {w r : List Char} (hw : Gap w)
    (hr : ∀ x ∈ r.head?, isGap x = false) (h : c.rest = w ++ r) :
    c.skipGap = ⟨c.pos + w.length, r⟩ := by
  have hg : c.rest.takeWhile isGap = w :=
    takeWhile_eq_iff.mpr ⟨r, h, fun x hx => isGap_iff.mpr (hw x hx), hr⟩
  rw [skipGap, hg, skip_append h]

theorem exists_gap (s : List Char) :
    ∃ w r, s = w ++ r ∧ Gap w ∧ ∀ x ∈ r.head?, isGap x = false := by
  obtain ⟨r, hs, hw, hr⟩ := takeWhile_eq_iff.mp (rfl : s.takeWhile isGap = _)
  exact ⟨_, r, hs, fun x hx => isGap_iff.mp (hw x hx), hr⟩

/-- One lexeme at the front of a text, with the gap before it, and the cursor behind it. -/
inductive Front (c : Cursor) : Lexeme → Cursor → Prop
  | literal {w r : List Char} {y : Char} : Gap w → c.rest = w ++ '\\' :: y :: r →
      Front c (.literal y) ⟨c.pos + w.length + 2, r⟩
  | opener {w r : List Char} {kind : GroupKind} : Gap w → c.rest = w ++ kind.opener :: r →
      Front c (.opener kind (c.pos + w.length)) ⟨c.pos + w.length + 1, r⟩
  | reference {w name s : List Char} {b : Bounds} {c' : Cursor} : Gap w →
      c.rest = w ++ '$' :: (name ++ s) → Identifier name s → Suffix s b c'.rest →
      c'.endPos = c.endPos → Front c (.reference name b) c'
  | plain {w s : List Char} {x : Char} {b : Bounds} {c' : Cursor} : Gap w →
      c.rest = w ++ x :: s → x ∉ ['\\', '[', '(', '$', ' ', '\t'] → Suffix s b c'.rest →
      c'.endPos = c.endPos → Front c (.plain x b) c'

/-- Behind the gap reading stops, with the lexemes that are kept and the reason. -/
inductive Halt (c : Cursor) : List Lexeme → Stop → Prop
  | escape {w : List Char} : Gap w → c.rest = w ++ ['\\'] →
      Halt c [] (.flaw .unexpectedEnd c.endPos)
  | name {w s : List Char} {e : Stop} : Gap w → c.rest = w ++ '$' :: s →
      Scan.identifier.Stops ⟨c.pos + w.length + 1, s⟩ e → Halt c [] e
  | reference {w name s : List Char} {e : Stop} : Gap w → c.rest = w ++ '$' :: (name ++ s) →
      Identifier name s → Scan.bounds.Stops ⟨c.pos + w.length + 1 + name.length, s⟩ e →
      Halt c [] e
  | plain {w s : List Char} {x : Char} {e : Stop} : Gap w → c.rest = w ++ x :: s →
      x ∉ ['\\', '[', '(', '$', ' ', '\t'] → Scan.bounds.Stops ⟨c.pos + w.length + 1, s⟩ e →
      Halt c [.unfinished x] e

theorem lexemes_of_gap {c : Cursor} (h : Gap c.rest) : c.lexemes = ⟨[], .ok c.endPos⟩ := by
  have hc : c.skipGap = ⟨c.pos + c.rest.length, []⟩ :=
    skipGap_of_gap h (by simp) (List.append_nil _).symm
  rw [lexemes]
  split
  · rw [hc]
    rfl
  · rename_i h'
    rw [hc] at h'
    cases h'

theorem lexemes_escape {c : Cursor} (h : c.skipGap.rest = ['\\']) :
    c.lexemes = ⟨[], .error (.flaw .unexpectedEnd (c.skipGap.pos + 1))⟩ := by
  rw [lexemes]
  split
  · simp_all
  · rename_i x r' h'
    rw [h] at h'
    cases h'
    simp

theorem lexemes_literal {c : Cursor} {y : Char} {r : List Char}
    (h : c.skipGap.rest = '\\' :: y :: r) :
    c.lexemes = (lexemes ⟨c.skipGap.pos + 2, r⟩).cons (.literal y) := by
  rw [lexemes]
  split
  · simp_all
  · rename_i x r' h'
    rw [h] at h'
    cases h'
    simp

theorem lexemes_opener {c : Cursor} {kind : GroupKind} {r : List Char}
    (h : c.skipGap.rest = kind.opener :: r) :
    c.lexemes = (lexemes ⟨c.skipGap.pos + 1, r⟩).cons (.opener kind c.skipGap.pos) := by
  rw [lexemes]
  split
  · simp_all
  · rename_i x r' h'
    rw [h] at h'
    cases h'
    cases kind <;> simp [GroupKind.opener]

theorem lexemes_dollar {c : Cursor} {r : List Char} (h : c.skipGap.rest = '$' :: r) :
    c.lexemes = match Scan.identifier ⟨c.skipGap.pos + 1, r⟩ with
      | .error e _ => ⟨[], .error e⟩
      | .ok name c₁ => match Scan.bounds c₁ with
        | .error e _ => ⟨[], .error e⟩
        | .ok b c₂ => c₂.lexemes.cons (.reference name b) := by
  rw [lexemes]
  split
  · simp_all
  · rename_i x r' h'
    rw [h] at h'
    cases h'
    simp only [Char.reduceEq, ↓reduceIte]
    split
    · simp_all
    · split <;> simp_all

theorem lexemes_plain {c : Cursor} {x : Char} {r : List Char} (h : c.skipGap.rest = x :: r)
    (hx : x ∉ ['\\', '[', '(', '$']) :
    c.lexemes = match Scan.bounds ⟨c.skipGap.pos + 1, r⟩ with
      | .error e _ => ⟨[.unfinished x], .error e⟩
      | .ok b c₁ => c₁.lexemes.cons (.plain x b) := by
  rw [lexemes]
  split
  · simp_all
  · rename_i x r' h'
    rw [h] at h'
    cases h'
    simp only [List.mem_cons, List.not_mem_nil, or_false, not_or] at hx
    simp only [hx, ↓reduceIte]
    split <;> simp_all

/-- The reader takes the first lexeme that there is. -/
theorem lexemes_of_front {c c' : Cursor} {x : Lexeme} (h : c.Front x c') :
    c.lexemes = c'.lexemes.cons x := by
  cases h with
  | @literal w r y hw hs =>
    have hc := skipGap_of_gap hw (by simp [isGap]) hs
    rw [lexemes_literal (congrArg Cursor.rest hc), hc]
  | @opener w r kind hw hs =>
    have hc := skipGap_of_gap hw (by cases kind <;> simp [isGap, GroupKind.opener]) hs
    rw [lexemes_opener (congrArg Cursor.rest hc), hc]
  | @reference w name s b c' hw hs hn hb he =>
    have hc := skipGap_of_gap hw (by simp [isGap]) hs
    have hid : Scan.identifier ⟨c.pos + w.length + 1, name ++ s⟩ =
        .ok name ⟨c.pos + w.length + 1 + name.length, s⟩ :=
      Scan.identifier_eq_ok.mpr ⟨s, rfl, hn, rfl⟩
    have hsuf : Scan.bounds ⟨c.pos + w.length + 1 + name.length, s⟩ = .ok b c' := by
      refine Scan.bounds_eq_ok.mpr ⟨hb, he.trans ?_⟩
      simp only [endPos, hs, List.length_append, List.length_cons]
      omega
    rw [lexemes_dollar (congrArg Cursor.rest hc), hc]
    simp only [hid, hsuf]
  | @plain w s x b c' hw hs hx hb he =>
    have hc := skipGap_of_gap hw (isGap_of_special hx) hs
    have hsuf : Scan.bounds ⟨c.pos + w.length + 1, s⟩ = .ok b c' := by
      refine Scan.bounds_eq_ok.mpr ⟨hb, he.trans ?_⟩
      simp only [endPos, hs, List.length_append, List.length_cons]
      omega
    rw [lexemes_plain (congrArg Cursor.rest hc) (by simp_all), hc]
    simp only [hsuf]

/-- The reader stops where there is no first lexeme. -/
theorem lexemes_of_halt {c : Cursor} {xs : List Lexeme} {e : Stop} (h : c.Halt xs e) :
    c.lexemes = ⟨xs, .error e⟩ := by
  cases h with
  | @escape w hw hs =>
    have hc := skipGap_of_gap hw (by simp [isGap]) hs
    rw [lexemes_escape (congrArg Cursor.rest hc), hc]
    simp only [endPos, hs, List.length_append, List.length_singleton, Nat.add_assoc]
  | name hw hs hn =>
    obtain ⟨d, hn⟩ := hn
    have hc := skipGap_of_gap hw (by simp [isGap]) hs
    rw [lexemes_dollar (congrArg Cursor.rest hc), hc]
    simp only [hn]
  | @reference w name s _ hw hs hid hb =>
    obtain ⟨d, hb⟩ := hb
    have hc := skipGap_of_gap hw (by simp [isGap]) hs
    have hn : Scan.identifier ⟨c.pos + w.length + 1, name ++ s⟩ =
        .ok name ⟨c.pos + w.length + 1 + name.length, s⟩ :=
      Scan.identifier_eq_ok.mpr ⟨s, rfl, hid, rfl⟩
    rw [lexemes_dollar (congrArg Cursor.rest hc), hc]
    simp only [hn, hb]
  | plain hw hs hx hb =>
    obtain ⟨d, hb⟩ := hb
    have hc := skipGap_of_gap hw (isGap_of_special hx) hs
    rw [lexemes_plain (congrArg Cursor.rest hc) (by simp_all), hc]
    simp only [hb]

theorem front_or_halt_of_dollar {c : Cursor} {w s : List Char} (hw : Gap w)
    (hs : c.rest = w ++ '$' :: s) : (∃ x c', c.Front x c') ∨ ∃ xs e, c.Halt xs e := by
  cases hn : Scan.identifier ⟨c.pos + w.length + 1, s⟩ with
  | error e d => exact .inr ⟨_, _, .name hw hs ⟨d, hn⟩⟩
  | ok name c₁ =>
    obtain ⟨r, hr, hid, rfl⟩ := Scan.identifier_eq_ok.mp hn
    obtain rfl : s = name ++ r := hr
    cases hb : Scan.bounds ⟨c.pos + w.length + 1 + name.length, r⟩ with
    | error e d => exact .inr ⟨_, _, .reference hw hs hid ⟨d, hb⟩⟩
    | ok b c₂ =>
      obtain ⟨hsuf, he⟩ := Scan.bounds_eq_ok.mp hb
      refine .inl ⟨_, _, .reference hw hs hid hsuf (he.trans ?_)⟩
      simp only [endPos, hs, List.length_append, List.length_cons]
      omega

theorem front_or_halt_of_plain {c : Cursor} {w s : List Char} {x : Char} (hw : Gap w)
    (hs : c.rest = w ++ x :: s) (hx : x ∉ ['\\', '[', '(', '$', ' ', '\t']) :
    (∃ b c', c.Front (.plain x b) c') ∨ ∃ e, c.Halt [.unfinished x] e := by
  cases hb : Scan.bounds ⟨c.pos + w.length + 1, s⟩ with
  | error e d => exact .inr ⟨_, .plain hw hs hx ⟨d, hb⟩⟩
  | ok b c₁ =>
    obtain ⟨hsuf, he⟩ := Scan.bounds_eq_ok.mp hb
    refine .inl ⟨_, _, .plain hw hs hx hsuf (he.trans ?_)⟩
    simp only [endPos, hs, List.length_append, List.length_cons]
    omega

/-- With no lexeme at the front there is only a gap, or reading stops at once. -/
theorem front_cases (c : Cursor) :
    Gap c.rest ∨ (∃ x c', c.Front x c') ∨ ∃ xs e, c.Halt xs e := by
  obtain ⟨w, s, hs, hw, hg⟩ := exists_gap c.rest
  cases s with
  | nil => exact .inl (by simpa [hs] using hw)
  | cons x r =>
    right
    by_cases hesc : x = '\\'
    · subst hesc
      cases r with
      | nil => exact .inr ⟨_, _, .escape hw hs⟩
      | cons y r => exact .inl ⟨_, _, .literal hw hs⟩
    by_cases hopen : ∃ kind : GroupKind, kind.opener = x
    · obtain ⟨kind, rfl⟩ := hopen
      exact .inl ⟨_, _, .opener hw hs⟩
    by_cases hdollar : x = '$'
    · subst hdollar
      exact front_or_halt_of_dollar hw hs
    · have hgap : x ≠ ' ' ∧ x ≠ '\t' := by simpa [isGap] using hg x rfl
      have hch : x ≠ '[' := fun h => hopen ⟨.choice, h.symm⟩
      have hseq : x ≠ '(' := fun h => hopen ⟨.sequence, h.symm⟩
      have hx : x ∉ ['\\', '[', '(', '$', ' ', '\t'] := by
        simp [hesc, hch, hseq, hdollar, hgap]
      rcases front_or_halt_of_plain hw hs hx with ⟨b, c', h⟩ | ⟨e, h⟩
      · exact .inl ⟨_, _, h⟩
      · exact .inr ⟨_, _, h⟩

theorem exists_front_reference {c : Cursor} {w name s r : List Char} {b : Bounds} (hw : Gap w)
    (hs : c.rest = w ++ '$' :: (name ++ s)) (hn : Identifier name s) (hb : Suffix s b r) :
    ∃ c', c.Front (.reference name b) c' ∧ c'.rest = r := by
  have hs' : c.rest = (w ++ '$' :: name) ++ s := by simp [hs]
  obtain ⟨c', rfl, he⟩ := exists_behind_suffix hs' hb
  exact ⟨c', .reference hw hs hn hb he, rfl⟩

theorem exists_front_plain {c : Cursor} {w s r : List Char} {x : Char} {b : Bounds} (hw : Gap w)
    (hs : c.rest = w ++ x :: s) (hx : x ∉ ['\\', '[', '(', '$', ' ', '\t'])
    (hb : Suffix s b r) : ∃ c', c.Front (.plain x b) c' ∧ c'.rest = r := by
  have hs' : c.rest = (w ++ [x]) ++ s := by simp [hs]
  obtain ⟨c', rfl, he⟩ := exists_behind_suffix hs' hb
  exact ⟨c', .plain hw hs hx hb he, rfl⟩

theorem Front.endPos_eq {c c' : Cursor} {x : Lexeme} (h : c.Front x c') :
    c'.endPos = c.endPos := by
  cases h with
  | literal _ hs =>
    simp only [endPos, hs, List.length_append, List.length_cons]
    omega
  | opener _ hs =>
    simp only [endPos, hs, List.length_append, List.length_cons]
    omega
  | reference _ _ _ _ he => exact he
  | plain _ _ _ _ he => exact he

/-- Every lexeme takes up some of the text. -/
theorem Front.length_lt {c c' : Cursor} {x : Lexeme} (h : c.Front x c') :
    c'.rest.length < c.rest.length := by
  cases h with
  | literal _ hs => simp [hs]; omega
  | opener _ hs => simp [hs]; omega
  | reference _ hs _ hb _ =>
    have := hb.length_le
    simp [hs]
    omega
  | plain _ hs _ hb _ =>
    have := hb.length_le
    simp [hs]
    omega

end Cursor

end Coinage
