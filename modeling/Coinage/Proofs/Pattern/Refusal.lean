import Coinage.Proofs.Pattern.Position

/-!
# Refused texts

A text that is no pattern is refused for a flaw at a place of it, or for a numeral with too many
digits. Such a numeral stands where the text in front of it ends in bounds that await one.
-/

namespace Coinage

open Grammar

namespace Cursor

variable {c : Cursor} {xs : List Lexeme}

theorem Halt.pos_le {what : Flaw} {p : Nat} (h : c.Halt xs (.flaw what p)) : p ≤ c.endPos := by
  generalize he : Stop.flaw what p = e at h
  have hbounds {pos : Nat} {s : List Char} (hb : Scan.bounds.Stops ⟨pos, s⟩ e) :
      p ≤ pos + s.length := by
    subst he
    rcases Scan.stops_bounds_cases hb with ⟨v, _, r, hs, he, -⟩ | ⟨_, _, _, -, he, -⟩
    · cases he
      simp only at hs
      simp only [hs, List.length_append]
      omega
    · cases he
  cases h with
  | escape =>
    cases he
    exact Nat.le_refl _
  | @name w s _ hw hs hn =>
    have hp : p = c.pos + w.length + 1 := by
      rcases Scan.stops_identifier.mp hn with ⟨-, rfl⟩ | ⟨_, _, -, -, rfl⟩
      · exact (Stop.flaw.inj he).2
      · exact (Stop.flaw.inj he).2
    simp only [endPos, hs, List.length_append, List.length_cons]
    omega
  | reference hw hs hn hb =>
    have hle := hbounds hb
    simp only [endPos, hs, List.length_append, List.length_cons]
    omega
  | plain hw hs hx hb =>
    have hle := hbounds hb
    simp only [endPos, hs, List.length_append, List.length_cons]
    omega

/-- An identifier is missed behind a dollar sign. -/
theorem Halt.pos_lt_of_badIdentifier {p : Nat} (h : c.Halt xs (.flaw .badIdentifier p)) :
    c.pos < p := by
  generalize he : Stop.flaw .badIdentifier p = e at h
  have hbounds {c' : Cursor} (hb : Scan.bounds.Stops c' e) : False := by
    subst he
    rcases Scan.stops_bounds_cases hb with ⟨_, _, _, -, he, hflawed⟩ | ⟨_, _, _, -, he, -⟩
    · cases he
      cases hflawed
    · cases he
  cases h with
  | escape => cases he
  | name hw hs hn =>
    rcases Scan.stops_identifier.mp hn with ⟨-, rfl⟩ | ⟨_, _, -, -, rfl⟩
    · cases he
    · cases he
      exact Nat.lt_succ_of_le (Nat.le_add_right _ _)
  | reference _ _ _ hb => exact (hbounds hb).elim
  | plain _ _ _ hb => exact (hbounds hb).elim

/-- An overlong numeral stands where reading stops for a missing one if the text ends in front of
it. -/
theorem Halt.exists_overlong {count : Nat} (h : c.Halt xs (.digits count)) :
    ∃ v ds r, c.rest = v ++ (ds ++ r) ∧ Overlong ds r ∧ count = ds.length ∧
      Halt ⟨c.pos, v⟩ xs (.flaw .badNumber (c.pos + v.length)) := by
  generalize he : Stop.digits count = e at h
  have hbounds {s : List Char} {pos : Nat} (hb : Scan.bounds.Stops ⟨pos, s⟩ e) :
      ∃ v ds r, s = v ++ (ds ++ r) ∧ Overlong ds r ∧ count = ds.length ∧ v ≠ [] ∧
        Scan.bounds.Stops ⟨pos, v⟩ (.flaw .badNumber (pos + v.length)) := by
    subst he
    rcases Scan.stops_bounds_cases hb with ⟨_, _, _, -, he, -⟩ | ⟨v, ds, r, hs, he, hv, hlong⟩
    · cases he
    · cases he
      have hne : v ≠ [] := by cases hv <;> exact List.cons_ne_nil _ _
      exact ⟨v, ds, r, hs, hlong, rfl, hne, Scan.stops_of_flawedSuffix
        (hv.flawedSuffix (by simp)) (List.append_nil v).symm⟩
  cases h with
  | escape => cases he
  | name hw hs hn =>
    rcases Scan.stops_identifier.mp hn with ⟨-, rfl⟩ | ⟨_, _, -, -, rfl⟩
    · cases he
    · cases he
  | @reference w name s _ hw hs hn hb =>
    obtain ⟨v, ds, r, rfl, hlong, hcount, hne, hstop⟩ := hbounds hb
    refine ⟨w ++ '$' :: (name ++ v), ds, r, by simp [hs], hlong, hcount, ?_⟩
    have hid : Identifier name v := hn.replace (by simpa using replaces_of_ne_nil hne [] (ds ++ r))
    have hh := Halt.reference (c := ⟨c.pos, w ++ '$' :: (name ++ v)⟩) hw rfl hid hstop
    have hpos : c.pos + (w ++ '$' :: (name ++ v)).length =
        c.pos + w.length + 1 + name.length + v.length := by
      simp only [List.length_append, List.length_cons]
      omega
    rwa [hpos]
  | @plain w s x _ hw hs hx hb =>
    obtain ⟨v, ds, r, rfl, hlong, hcount, hne, hstop⟩ := hbounds hb
    refine ⟨w ++ x :: v, ds, r, by simp [hs], hlong, hcount, ?_⟩
    have hh := Halt.plain (c := ⟨c.pos, w ++ x :: v⟩) hw rfl hx hstop
    have hpos : c.pos + (w ++ x :: v).length = c.pos + w.length + 1 + v.length := by
      simp only [List.length_append, List.length_cons]
      omega
    rwa [hpos]

/-- An overlong numeral can follow a text that ends where one has to stand. -/
theorem Halt.overlong {ds r : List Char} (h : c.Halt xs (.flaw .badNumber c.endPos))
    (hlong : Overlong ds r) : Halt ⟨c.pos, c.rest ++ (ds ++ r)⟩ xs (.digits ds.length) := by
  generalize he : Stop.flaw .badNumber c.endPos = e at h
  have hbounds {s : List Char} {pos : Nat} (hb : Scan.bounds.Stops ⟨pos, s⟩ e)
      (hend : c.endPos = pos + s.length) :
      s ≠ [] ∧ Scan.bounds.Stops ⟨pos, s ++ (ds ++ r)⟩ (.digits ds.length) := by
    subst he
    rcases Scan.stops_bounds_cases hb with ⟨v, what, t, hs, he, hv⟩ | ⟨_, _, _, -, he, -⟩
    · obtain ⟨rfl, hp⟩ := Stop.flaw.inj he
      have hp : c.endPos = pos + v.length := hp
      have hs : s = v ++ t := hs
      have hlen : s.length = v.length + t.length := by rw [hs, List.length_append]
      obtain rfl : t = [] := List.eq_nil_of_length_eq_zero (by omega)
      rw [List.append_nil] at hs
      subst hs
      have hawait := hv.awaitsNumeral
      exact ⟨by cases hawait <;> exact List.cons_ne_nil _ _,
        Scan.stops_of_awaitsNumeral hawait hlong rfl⟩
    · cases he
  cases h with
  | escape => cases he
  | name hw hs hn =>
    rcases Scan.stops_identifier.mp hn with ⟨-, rfl⟩ | ⟨_, _, -, -, rfl⟩
    · cases he
    · cases he
  | @reference w name s _ hw hs hn hb =>
    obtain ⟨hne, hstop⟩ := hbounds hb (by
      simp only [endPos, hs, List.length_append, List.length_cons]
      omega)
    exact .reference hw (by simp [hs]) (hn.replace (replaces_append hne _)) hstop
  | @plain w s x _ hw hs hx hb =>
    obtain ⟨hne, hstop⟩ := hbounds hb (by
      simp only [endPos, hs, List.length_append, List.length_cons]
      omega)
    exact .plain hw (by simp [hs]) hx hstop

end Cursor

namespace Nesting

variable {n : Nesting} {c : Cursor} {e : Stop}

theorem read_eq_error {x : Lexeme} (h : n.read x = .error e) :
    (∃ kind pos, x = .opener kind pos ∧ e = .flaw .tooDeep pos) ∨
      ∃ g ∈ n.groups, e = .flaw .emptyChoice g.pos := by
  have hempty {y : Char} (hy : n.ClosesEmpty y e) :
      ∃ g ∈ n.groups, e = .flaw .emptyChoice g.pos := by
    obtain ⟨g, gs, rfl, -, -, he⟩ := hy
    exact ⟨g, List.mem_cons_self, he⟩
  cases x with
  | opener kind pos =>
    simp only [read] at h
    split at h
    · cases h
    · cases h
      exact .inl ⟨kind, pos, rfl, rfl⟩
  | literal y => cases h
  | reference name b => cases h
  | plain y b => exact .inr (hempty (read_plain_eq_error.mp h))
  | unfinished y => exact .inr (hempty (read_unfinished_eq_error.mp h))

/-- What is kept of a broken lexeme can be refused for an alternation that it would close. -/
theorem foldlM_eq_error_of_halt {xs : List Lexeme} {e₁ : Stop} (hh : c.Halt xs e₁)
    (h : xs.foldlM Nesting.read n = .error e) : ∃ g ∈ n.groups, e = .flaw .emptyChoice g.pos := by
  cases hh with
  | escape => cases h
  | name => cases h
  | reference => cases h
  | plain =>
    simp only [List.foldlM_cons, List.foldlM_nil, bind_pure] at h
    obtain ⟨_, _, hx, -⟩ | h := read_eq_error h
    · cases hx
    · exact h

/-- Whatever flaw reading stops for, its place is within the text. -/
theorem pos_le_of_finish {what : Flaw} {p : Nat} (hg : ∀ g ∈ n.groups, g.pos ≤ c.endPos)
    (h : n.finish c = .error (.flaw what p)) : p ≤ c.endPos := by
  -- on the text that is left, which every lexeme makes shorter
  induction hl : c.rest.length using Nat.strongRecOn generalizing n c with
  | ind l ih =>
    have hempty {e : Stop} (h : ∃ g ∈ n.groups, e = .flaw .emptyChoice g.pos)
        (he : e = .flaw what p) : p ≤ c.endPos := by
      obtain ⟨g, hmem, rfl⟩ := h
      cases he
      exact hg g hmem
    have hopener {kind : GroupKind} {pos : Nat} {c' : Cursor}
        (hx : c.Front (.opener kind pos) c') : pos ≤ c.endPos := by
      cases hx with
      | opener hw hs =>
        simp only [Cursor.endPos, hs, List.length_append]
        omega
    rcases c.front_cases with hw | ⟨x, c', hx⟩ | ⟨xs, e, hh⟩
    · cases eq_unexpectedEnd_of_gap hw h
      exact Nat.le_refl _
    · rw [finish_of_front hx] at h
      rcases except_bind_eq_error.mp h with h | ⟨n', hr, h⟩
      · obtain ⟨kind, pos, rfl, he⟩ | h := read_eq_error h
        · cases he
          exact hopener hx
        · exact hempty h rfl
      · rw [← hx.endPos_eq]
        refine ih _ (hl ▸ hx.length_lt) (fun g hmem => ?_) h rfl
        rw [hx.endPos_eq]
        rcases mem_groups_of_read hr hmem with hmem | ⟨kind, rfl⟩
        · exact hg g hmem
        · exact hopener hx
    · rw [finish_of_halt hh] at h
      rcases except_bind_eq_error.mp h with h | ⟨n', -, h⟩
      · exact hempty (foldlM_eq_error_of_halt hh h) rfl
      · cases h
        exact hh.pos_le

theorem pos_lt_of_badIdentifier {p : Nat} (h : n.finish c = .error (.flaw .badIdentifier p)) :
    c.pos < p := by
  -- on the text that is left, which every lexeme makes shorter
  induction hl : c.rest.length using Nat.strongRecOn generalizing n c with
  | ind l ih =>
    rcases c.front_cases with hw | ⟨x, c', hx⟩ | ⟨xs, e, hh⟩
    · cases eq_unexpectedEnd_of_gap hw h
    · rw [finish_of_front hx] at h
      rcases except_bind_eq_error.mp h with h | ⟨n', -, h⟩
      · rcases read_eq_error h with ⟨_, _, -, he⟩ | ⟨_, -, he⟩ <;> cases he
      · have hlt := ih _ (hl ▸ hx.length_lt) h rfl
        have hlength := hx.length_lt
        have hend := hx.endPos_eq
        simp only [Cursor.endPos] at hend
        omega
    · rw [finish_of_halt hh] at h
      rcases except_bind_eq_error.mp h with h | ⟨n', -, h⟩
      · obtain ⟨_, -, he⟩ := foldlM_eq_error_of_halt hh h
        cases he
      · cases h
        exact hh.pos_lt_of_badIdentifier

/-- An overlong numeral can follow where reading stops at the end of the text for a missing one. -/
theorem finish_of_overlong {ds r : List Char} (hlong : Overlong ds r)
    (h : n.finish c = .error (.flaw .badNumber c.endPos)) :
    n.finish ⟨c.pos, c.rest ++ (ds ++ r)⟩ = .error (.digits ds.length) := by
  -- on the text that is left, which every lexeme makes shorter
  induction hl : c.rest.length using Nat.strongRecOn generalizing n c with
  | ind l ih =>
    rcases c.front_cases with hw | ⟨x, c', hx⟩ | ⟨xs, e, hh⟩
    · cases eq_unexpectedEnd_of_gap hw h
    · rw [finish_of_front hx] at h
      rcases except_bind_eq_error.mp h with h | ⟨n', hr, h⟩
      · obtain ⟨_, _, -, h⟩ | ⟨_, -, h⟩ := read_eq_error h
        · cases h
        · cases h
      · have hne : c'.rest ≠ [] := fun hnil => by
          have hw : Gap c'.rest := hnil ▸ gap_nil
          cases eq_unexpectedEnd_of_gap hw h
        rw [finish_of_front (hx.append hne _), hr]
        exact ih _ (hl ▸ hx.length_lt) (hx.endPos_eq ▸ h) rfl
    · rw [finish_of_halt hh] at h
      rcases except_bind_eq_error.mp h with h | ⟨n', hr, h⟩
      · obtain ⟨_, -, h⟩ := foldlM_eq_error_of_halt hh h
        cases h
      · cases h
        rw [finish_of_halt (hh.overlong hlong), hr]
        rfl

/-- An overlong numeral for which reading stops stands where reading stops for a missing one if the
text ends in front of it. -/
theorem exists_overlong_of_finish {count : Nat} (h : n.finish c = .error (.digits count)) :
    ∃ v ds r, c.rest = v ++ (ds ++ r) ∧ Overlong ds r ∧ count = ds.length ∧
      n.finish ⟨c.pos, v⟩ = .error (.flaw .badNumber (c.pos + v.length)) := by
  -- on the text that is left, which every lexeme makes shorter
  induction hl : c.rest.length using Nat.strongRecOn generalizing n c with
  | ind l ih =>
    rcases c.front_cases with hw | ⟨x, c', hx⟩ | ⟨xs, e, hh⟩
    · cases eq_unexpectedEnd_of_gap hw h
    · rw [finish_of_front hx] at h
      rcases except_bind_eq_error.mp h with h | ⟨n', hr, h⟩
      · obtain ⟨_, _, -, h⟩ | ⟨_, -, h⟩ := read_eq_error h
        · cases h
        · cases h
      · obtain ⟨v, ds, r, hs, hlong, hcount, h⟩ := ih _ (hl ▸ hx.length_lt) h rfl
        obtain ⟨u, -, hu, hpos, hrep⟩ := hx.replace
        have hne : v ≠ [] := fun hnil => by
          cases eq_unexpectedEnd_of_gap (c := ⟨c'.pos, v⟩) (hnil ▸ gap_nil) h
        have hrest : Replaces v c'.rest := by
          simpa [hs] using replaces_of_ne_nil hne [] (ds ++ r)
        have hend : c.pos + (u ++ v).length = c'.pos + v.length := by
          rw [List.length_append, hpos, Nat.add_assoc]
        refine ⟨u ++ v, ds, r, by rw [hu, hs, List.append_assoc], hlong, hcount, ?_⟩
        rw [finish_of_front (hrep v hrest), hr, hend]
        exact h
    · rw [finish_of_halt hh] at h
      rcases except_bind_eq_error.mp h with h | ⟨n', hr, h⟩
      · obtain ⟨_, -, h⟩ := foldlM_eq_error_of_halt hh h
        cases h
      · cases h
        obtain ⟨v, ds, r, hs, hlong, hcount, hh⟩ := hh.exists_overlong
        refine ⟨v, ds, r, hs, hlong, hcount, ?_⟩
        rw [finish_of_halt hh, hr]
        rfl

end Nesting

/-- No text is refused at its beginning for a missing identifier. -/
@[simp] theorem compile_ne_badIdentifier_zero (s source : List Char) :
    Pattern.compile s ≠ .error (.pattern ⟨.badIdentifier, source, 0⟩) := by
  intro h
  obtain ⟨stop, hstop, he⟩ := compile_eq_error.mp h
  cases stop with
  | flaw what pos =>
    cases he
    exact Nat.not_lt_zero _ (Nesting.pos_lt_of_badIdentifier hstop)
  | digits count => cases he

/-- A text is refused for a numeral with too many digits exactly if it goes on with one behind a
part that is refused, at its end, for a missing numeral. -/
theorem compile_eq_digits_iff {s : List Char} {count : Nat} :
    Pattern.compile s = .error (.digits count) ↔
      ∃ u ds r, s = u ++ (ds ++ r) ∧ Overlong ds r ∧ count = ds.length ∧
        Pattern.compile u = .error (.pattern ⟨.badNumber, u, u.length⟩) := by
  have hmissing {u : List Char} : Pattern.compile u = .error (.pattern ⟨.badNumber, u, u.length⟩) ↔
      Nesting.start.finish ⟨0, u⟩ = .error (.flaw .badNumber (0 + u.length)) := by
    rw [compile_eq_error, Nat.zero_add]
    constructor
    · rintro ⟨stop, hstop, he⟩
      cases stop with
      | flaw what pos =>
        cases he
        exact hstop
      | digits count => cases he
    · exact fun h => ⟨_, h, rfl⟩
  rw [compile_eq_error]
  constructor
  · rintro ⟨stop, hstop, he⟩
    cases stop with
    | flaw what pos => cases he
    | digits count =>
      cases he
      obtain ⟨u, ds, r, hs, hlong, hcount, h⟩ := Nesting.exists_overlong_of_finish hstop
      exact ⟨u, ds, r, hs, hlong, hcount, hmissing.mpr h⟩
  · rintro ⟨u, ds, r, rfl, hlong, rfl, h⟩
    exact ⟨_, Nesting.finish_of_overlong (c := ⟨0, u⟩) hlong (hmissing.mp h), rfl⟩

/-- Compiling a text gives a pattern that keeps the text, or refuses it for a flaw at a place of it,
or for a numeral with more than 4300 digits. The last happens exactly if such a numeral stands
behind a part of the text that would be refused, at its end, for a missing numeral. -/
theorem compile_keeps_or_refuses (s : List Char) :
    ((∃ t, Pattern.compile s = .ok ⟨s, t⟩) ∨
      (∃ what pos, pos ≤ s.length ∧ Pattern.compile s = .error (.pattern ⟨what, s, pos⟩)) ∨
      ∃ count, Pattern.compile s = .error (.digits count)) ∧
    ∀ count, Pattern.compile s = .error (.digits count) ↔
      ∃ u ds r, s = u ++ (ds ++ r) ∧ Overlong ds r ∧ count = ds.length ∧
        Pattern.compile u = .error (.pattern ⟨.badNumber, u, u.length⟩) := by
  refine ⟨?_, fun count => compile_eq_digits_iff⟩
  cases h : Pattern.compile s with
  | ok p =>
    obtain ⟨t, -, rfl⟩ := compile_eq_ok.mp h
    exact .inl ⟨t, rfl⟩
  | error e =>
    obtain ⟨stop, hstop, rfl⟩ := compile_eq_error.mp h
    cases stop with
    | flaw what pos =>
      have hpos : pos ≤ (Cursor.start s).endPos :=
        Nesting.pos_le_of_finish (by simp [Nesting.start]) hstop
      exact .inr (.inl ⟨what, pos, by simpa [Cursor.start] using hpos, rfl⟩)
    | digits count => exact .inr (.inr ⟨count, rfl⟩)

/-- Bounds in order, of which the greatest has one digit too many, make neither a pattern nor a
flaw. -/
theorem compile_overlong_greatest :
    let s := "a\x7b0,".toList ++ (List.replicate 4301 '1' ++ ['\x7d'])
    Pattern.compile s = .error (.digits 4301) ∧
      ¬((∃ t, Pattern.compile s = .ok ⟨s, t⟩) ∨
        ∃ what pos, pos ≤ s.length ∧ Pattern.compile s = .error (.pattern ⟨what, s, pos⟩)) := by
  intro s
  have hlong : Overlong (List.replicate 4301 '1') ['\x7d'] := by
    refine ⟨fun d hd => ?_, Scan.no_digit_head rfl [], ?_⟩
    · rw [List.eq_of_mem_replicate hd]
      decide
    · rw [List.length_replicate]
      decide
  have hmissing : Pattern.compile "a\x7b0,".toList =
      .error (.pattern ⟨.badNumber, "a\x7b0,".toList, 4⟩) := by cbv
  have hs : Pattern.compile s = .error (.digits 4301) :=
    compile_eq_digits_iff.mpr ⟨_, _, _, rfl, hlong, List.length_replicate.symm, hmissing⟩
  refine ⟨hs, ?_⟩
  rintro (⟨t, ht⟩ | ⟨what, pos, -, hp⟩)
  · cases hs.symm.trans ht
  · cases hs.symm.trans hp

end Coinage
