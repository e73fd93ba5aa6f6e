import Coinage.Proofs.Pattern.Derivation
import Coinage.Proofs.Pattern.Flaws

/-!
# Lexemes under changes of the text

A lexeme at the front does not depend on what follows, as long as that begins in the same way or
with a space. Where reading stops, there is a lexeme that the text in front of the flaw can be
mended to.
-/

namespace Coinage

open Grammar

namespace Cursor

variable {c c' : Cursor} {x : Lexeme} {xs : List Lexeme}

/-- A lexeme takes up the same part of the text whatever replaces the rest. -/
theorem Front.replace (h : c.Front x c') : ∃ v, v ≠ [] ∧ c.rest = v ++ c'.rest ∧
    c'.pos = c.pos + v.length ∧ ∀ s, Replaces s c'.rest → Front ⟨c.pos, v ++ s⟩ x ⟨c'.pos, s⟩ := by
  have hend := h.endPos_eq
  cases h with
  | @literal w r y hw hs =>
    refine ⟨w ++ ['\\', y], by simp, by simpa using hs, ?_, fun s _ => ?_⟩
    · simp [Nat.add_assoc]
    · exact .literal hw (by simp)
  | @opener w r kind hw hs =>
    refine ⟨w ++ [kind.opener], by simp, by simpa using hs, ?_, fun s _ => ?_⟩
    · simp [Nat.add_assoc]
    · exact .opener hw (by simp)
  | @reference w name s b _ hw hs hn hb _ =>
    obtain ⟨v, rfl, hv⟩ := hb.replace
    have hs' : c.rest = (w ++ '$' :: (name ++ v)) ++ c'.rest := by simp [hs]
    have hpos := pos_eq_of_endPos hs' hend
    refine ⟨w ++ '$' :: (name ++ v), by simp, hs', hpos, fun s hr => ?_⟩
    refine .reference hw (by simp) (hn.replace (hr.append v)) (hv s hr) ?_
    simp only [endPos, hpos, List.length_append]
    omega
  | @plain w s x b _ hw hs hx hb _ =>
    obtain ⟨v, rfl, hv⟩ := hb.replace
    have hs' : c.rest = (w ++ x :: v) ++ c'.rest := by simp [hs]
    have hpos := pos_eq_of_endPos hs' hend
    refine ⟨w ++ x :: v, by simp, hs', hpos, fun s hr => ?_⟩
    refine .plain hw (by simp) hx (hv s hr) ?_
    simp only [endPos, hpos, List.length_append]
    omega

/-- A lexeme that is not the last of the text is the same whatever text follows. -/
theorem Front.append (h : c.Front x c') (hr : c'.rest ≠ []) (w : List Char) :
    Front ⟨c.pos, c.rest ++ w⟩ x ⟨c'.pos, c'.rest ++ w⟩ := by
  obtain ⟨v, -, hs, -, hv⟩ := h.replace
  rw [hs, List.append_assoc]
  exact hv _ (replaces_append hr w)

/-- Where reading stops in front of the end, it does so whatever text follows. -/
theorem Halt.append {what : Flaw} {p : Nat} (h : c.Halt xs (.flaw what p))
    (hshort : ShortRuns c.rest) (hp : p < c.endPos) (t : List Char) :
    Halt ⟨c.pos, c.rest ++ t⟩ xs (.flaw what p) := by
  generalize he : Stop.flaw what p = e at h
  cases h with
  | escape =>
    cases he
    exact absurd hp (Nat.lt_irrefl _)
  | @name w s _ hw hs hn =>
    subst he
    refine .name (s := s ++ t) hw (by simp [hs]) (Scan.stops_identifier.mpr ?_)
    rcases Scan.stops_identifier.mp hn with ⟨hnil, he⟩ | ⟨x, r, hcons, hx, he⟩
    · cases he
      simp only at hnil
      simp only [endPos, hs, hnil, List.length_append, List.length_singleton] at hp
      omega
    · exact .inr ⟨x, r ++ t, by simp_all, hx, he⟩
  | @reference w name s _ hw hs hn hb =>
    subst he
    have hs' : ShortRuns s := hshort.of_suffix ⟨w ++ '$' :: name, by simp [hs]⟩
    have hne : s ≠ [] := by
      rintro rfl
      obtain ⟨r, hr, -⟩ := Scan.stops_bounds.mp hb
      cases hr
    refine .reference (s := s ++ t) hw (by simp [hs]) (hn.replace (replaces_append hne t)) ?_
    refine hb.bounds_append hs' ?_ t
    simp only [endPos, hs, List.length_append, List.length_cons] at hp ⊢
    omega
  | @plain w s x _ hw hs hx hb =>
    subst he
    have hs' : ShortRuns s := hshort.of_suffix ⟨w ++ [x], by simp [hs]⟩
    refine .plain (s := s ++ t) hw (by simp [hs]) hx (hb.bounds_append hs' ?_ t)
    simp only [endPos, hs, List.length_append, List.length_cons] at hp ⊢
    omega

end Cursor

/-- What is kept of a lexeme if reading stops within it. -/
inductive Lexeme.Broken : Lexeme → List Lexeme → Prop
  | literal {y : Char} : Broken (.literal y) []
  | reference {name : Name} {b : Bounds} : Broken (.reference name b) []
  | plain {x : Char} {b : Bounds} : Broken (.plain x b) [.unfinished x]

namespace Cursor

variable {c : Cursor} {xs : List Lexeme} {e : Stop}

/-- Where reading stops, the text in front of the flaw can be mended to a lexeme. -/
theorem Halt.mend (h : c.Halt xs e) (hshort : ShortRuns c.rest) :
    ∃ v what r x y, c.rest = v ++ r ∧ v ≠ [] ∧ e = .flaw what (c.pos + v.length) ∧ x.Broken xs ∧
      ∀ z, z.head? = some ' ' → ∃ d, Front ⟨c.pos, v ++ (y ++ z)⟩ x d ∧ d.rest = z := by
  cases h with
  | @escape w hw hs =>
    refine ⟨w ++ ['\\'], .unexpectedEnd, [], .literal 'a', ['a'], by simp [hs], by simp, ?_,
      .literal, fun z _ => ⟨_, .literal hw (by simp), rfl⟩⟩
    simp only [endPos, hs]
  | @name w s _ hw hs hn =>
    obtain ⟨what, rfl⟩ : ∃ what, e = .flaw what (c.pos + w.length + 1) := by
      rcases Scan.stops_identifier.mp hn with ⟨-, rfl⟩ | ⟨x, r, -, -, rfl⟩
      · exact ⟨_, rfl⟩
      · exact ⟨_, rfl⟩
    refine ⟨w ++ ['$'], what, s, .reference ['a'] ⟨1, 1⟩, ['a'], by simp [hs], by simp, ?_,
      .reference, fun z hz => ?_⟩
    · simp only [List.length_append, List.length_singleton, Nat.add_assoc]
    · have hid : Identifier ['a'] z := by
        refine ⟨by decide, ?_⟩
        rw [hz]
        rintro x ⟨⟩
        decide
      exact exists_front_reference hw (by simp) hid (suffix_none hz)
  | @reference w name s _ hw hs hn hb =>
    have hs' : ShortRuns s := hshort.of_suffix ⟨w ++ '$' :: name, by simp [hs]⟩
    obtain ⟨v, what, r, hr, rfl, hf⟩ := Scan.flawedSuffix_of_stops hs' hb
    obtain rfl : s = v ++ r := hr
    obtain ⟨y, b, hy⟩ := hf.mend hs'
    refine ⟨w ++ '$' :: (name ++ v), what, r, .reference name b, y, by simp [hs], by simp, ?_,
      .reference, fun z hz => ?_⟩
    · simp only [List.length_append, List.length_cons]
      exact congrArg (Stop.flaw what) (by omega)
    · obtain ⟨hrep, hsuf⟩ := hy z hz
      exact exists_front_reference hw (by simp) (hn.replace hrep) hsuf
  | @plain w s x _ hw hs hx hb =>
    have hs' : ShortRuns s := hshort.of_suffix ⟨w ++ [x], by simp [hs]⟩
    obtain ⟨v, what, r, hr, rfl, hf⟩ := Scan.flawedSuffix_of_stops hs' hb
    obtain rfl : s = v ++ r := hr
    obtain ⟨y, b, hy⟩ := hf.mend hs'
    refine ⟨w ++ x :: v, what, r, .plain x b, y, by simp [hs], by simp, ?_, .plain,
      fun z hz => ?_⟩
    · simp only [List.length_append, List.length_cons]
      exact congrArg (Stop.flaw what) (by omega)
    · obtain ⟨-, hsuf⟩ := hy z hz
      exact exists_front_plain hw (by simp) hx hsuf

end Cursor

end Coinage
