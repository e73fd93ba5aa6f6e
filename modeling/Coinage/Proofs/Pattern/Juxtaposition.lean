import Coinage.Proofs.Pattern.Moved
import Coinage.Proofs.Pattern.Position
import Mathlib

/-!
# Patterns side by side

A pattern and a text with a gap between them are read as the pattern and then as the text: no token
of the pattern goes on behind the gap, and at its end no group is open. So the text is a pattern
there if it is one by itself, and is refused for the same reason if it is not.
-/

namespace Coinage

namespace Grammar

variable {closers s r v : List Char} {g : Char}

theorem head?_append_gap {c : Char} (hg : g = ' ' ∨ g = '\t') (hc : c ≠ ' ' ∧ c ≠ '\t')
    (h : r.head? ≠ some c) : (r ++ g :: v).head? ≠ some c := by
  cases r with
  | nil => rcases hg with rfl | rfl <;> simp [hc.1.symm, hc.2.symm]
  | cons x r => exact h

theorem Suffix.append {b : Bounds} (hg : g = ' ' ∨ g = '\t') (h : Suffix s b r) :
    Suffix (s ++ g :: v) b (r ++ g :: v) := by
  cases h with
  | none h₁ h₂ =>
    exact .none (head?_append_gap hg (by decide) h₁) (head?_append_gap hg (by decide) h₂)
  | optional => exact .optional
  | @braces ds es _ lo hi hlo hhi hle =>
    have h := Suffix.braces (r := r ++ g :: v) hlo hhi hle
    simpa using h

theorem Identifier.append {name : List Char} (hg : g = ' ' ∨ g = '\t') (h : Identifier name r) :
    Identifier name (r ++ g :: v) := by
  refine ⟨h.isIdentifier, ?_⟩
  cases r with
  | nil =>
    rintro x ⟨⟩
    rcases hg with rfl | rfl <;> decide
  | cons x r => exact h.maximal

end Grammar

open Grammar

variable {c c' : Cursor} {g : Char}

def Cursor.before (v : List Char) (c : Cursor) : Cursor := ⟨c.pos, c.rest ++ v⟩

/-- A lexeme is the same in a text that goes on behind a gap. -/
theorem Cursor.Front.before_gap {x : Lexeme} (hg : g = ' ' ∨ g = '\t') (h : c.Front x c')
    (v : List Char) : Front (c.before (g :: v)) x (c'.before (g :: v)) := by
  have hend {d : Cursor} (he : d.endPos = c.endPos) :
      (d.before (g :: v)).endPos = (c.before (g :: v)).endPos := by
    simp only [endPos, before, List.length_append] at he ⊢
    omega
  cases h with
  | literal hw hs => exact .literal hw (by simp [before, hs])
  | opener hw hs => exact .opener hw (by simp [before, hs])
  | reference hw hs hn hb he =>
    exact .reference hw (by simp [before, hs]) (hn.append hg) (hb.append hg) (hend he)
  | plain hw hs hx hb he => exact .plain hw (by simp [before, hs]) hx (hb.append hg) (hend he)

/-- Behind a pattern and a gap reading goes on as if nothing had been read, with the nodes of the
pattern in front. -/
theorem Nesting.exists_finish_before {n : Nesting} {t : Tree} {v w : List Char} (hw : Gap w)
    (hne : w ≠ []) (h : n.finish c = .ok t) : ∃ nodes d, t = .sequence nodes.reverse .once ∧
      Cursor.Ahead (c.endPos + w.length) (.start v) d ∧
      n.finish (c.before (w ++ v)) = finish ⟨nodes, []⟩ d := by
  obtain ⟨g, w, rfl⟩ := List.exists_cons_of_ne_nil hne
  have hg : g = ' ' ∨ g = '\t' := hw g List.mem_cons_self
  -- on the text that is left, which every lexeme makes shorter
  induction hl : c.rest.length using Nat.strongRecOn generalizing n c with
  | ind l ih =>
    rcases c.front_cases with hgap | ⟨x, c', hx⟩ | ⟨xs, e, hh⟩
    · rw [finish_of_gap hgap] at h
      obtain ⟨nodes, groups⟩ := n
      cases groups with
      | nil =>
        cases h
        refine ⟨nodes, c.before (g :: w ++ v), rfl, ⟨c.rest ++ g :: w, hgap.append hw, ?_, ?_⟩, rfl⟩
        · exact (List.append_assoc _ _ _).symm
        · simp only [Cursor.before, Cursor.start, Cursor.endPos, List.length_append]
          omega
      | cons _ _ => cases h
    · rw [finish_of_front hx] at h
      obtain ⟨m, hr, h⟩ := except_bind_eq_ok.mp h
      obtain ⟨nodes, d, ht, hd, hfinish⟩ := ih _ (hl ▸ hx.length_lt) h rfl
      refine ⟨nodes, d, ht, hx.endPos_eq ▸ hd, ?_⟩
      rw [List.cons_append, finish_of_front (hx.before_gap hg _), hr]
      exact hfinish
    · rw [finish_of_halt hh] at h
      obtain ⟨_, -, h⟩ := except_bind_eq_ok.mp h
      cases h

/-- Behind a pattern and a gap a text comes to what it comes to by itself: its nodes stand behind
those of the pattern, and where reading stops, it stops as many characters further behind. -/
theorem finish_behind_pattern {u w : List Char} {p : Pattern} (hw : Gap w) (hne : w ≠ [])
    (hp : Pattern.compile u = .ok p) (v : List Char) :
    ∃ nodes, p.root = .sequence nodes.reverse .once ∧
      Alongside (u.length + w.length) (Nesting.Prefixed nodes)
        (Nesting.start.finish (.start v)) (Nesting.start.finish (.start (u ++ (w ++ v)))) := by
  obtain ⟨t, ht, rfl⟩ := compile_eq_ok.mp hp
  obtain ⟨nodes, d, hroot, hd, hfinish⟩ :=
    Nesting.exists_finish_before (v := v) hw hne ht
  refine ⟨nodes, hroot, ?_⟩
  have hend : (Cursor.start u).endPos = u.length := Nat.zero_add _
  rw [hend] at hd
  change Alongside _ _ _ (Nesting.start.finish ((Cursor.start u).before (w ++ v)))
  rw [hfinish]
  exact Nesting.Behind.outside.finish hd

/-- Patterns compile side by side, and the children of the roots are put together. -/
theorem compile_append {u v w : List Char} {p q : Pattern} (hw : Gap w) (hne : w ≠ [])
    (hp : Pattern.compile u = .ok p) (hq : Pattern.compile v = .ok q) :
    ∃ ts us, p.root = .sequence ts ⟨1, 1⟩ ∧ q.root = .sequence us ⟨1, 1⟩ ∧
      Pattern.compile (u ++ (w ++ v)) = .ok ⟨u ++ (w ++ v), .sequence (ts ++ us) ⟨1, 1⟩⟩ := by
  obtain ⟨nodes, hroot, hv⟩ := finish_behind_pattern hw hne hp v
  obtain ⟨t, ht, rfl⟩ := compile_eq_ok.mp hq
  rw [ht] at hv
  obtain ⟨_, hboth, us, rfl, rfl⟩ := hv.of_ok
  exact ⟨_, us, hroot, rfl, compile_eq_ok.mpr ⟨_, hboth, rfl⟩⟩

/-- Behind a pattern and a gap the reading of a text stops for the same reason, at the place that
the text has there. -/
theorem compile_append_of_stop {u v w : List Char} {p : Pattern} {e : Stop} (hw : Gap w)
    (hne : w ≠ []) (hp : Pattern.compile u = .ok p)
    (he : Nesting.start.finish (.start v) = .error e) : Pattern.compile (u ++ (w ++ v)) =
      .error ((e.moved (u.length + w.length)).refusal (u ++ (w ++ v))) := by
  obtain ⟨nodes, -, hv⟩ := finish_behind_pattern hw hne hp v
  rw [he] at hv
  exact compile_eq_error.mpr ⟨_, hv.of_error, rfl⟩

/-- Compilation is compositional. Where a pattern is followed by a gap and a text, the whole is a
pattern if the text is one, and its nodes are those of both; where the text is refused for a flaw,
the whole is refused for the same flaw, as far behind the pattern and the gap; and where a numeral
of the text is too long, the whole is refused for it. -/
theorem compile_behind_pattern {u v w : List Char} {p : Pattern} (hw : Gap w) (hne : w ≠ [])
    (hp : Pattern.compile u = .ok p) : ∃ ts, p.root = .sequence ts .once ∧
      (∀ q, Pattern.compile v = .ok q → ∃ us, q.root = .sequence us .once ∧
        Pattern.compile (u ++ (w ++ v)) = .ok ⟨u ++ (w ++ v), .sequence (ts ++ us) .once⟩) ∧
      (∀ e, Pattern.compile v = .error (.pattern e) → Pattern.compile (u ++ (w ++ v)) =
        .error (.pattern ⟨e.flaw, u ++ (w ++ v), u.length + w.length + e.pos⟩)) ∧
      ∀ count, Pattern.compile v = .error (.digits count) →
        Pattern.compile (u ++ (w ++ v)) = .error (.digits count) := by
  obtain ⟨nodes, hroot, -⟩ := finish_behind_pattern hw hne hp v
  refine ⟨nodes.reverse, hroot, fun q hq => ?_, fun e he => ?_, fun count he => ?_⟩
  · obtain ⟨ts, us, hroot', hus, hboth⟩ := compile_append hw hne hp hq
    cases hroot.symm.trans hroot'
    exact ⟨us, hus, hboth⟩
  · obtain ⟨stop, hstop, he⟩ := compile_eq_error.mp he
    cases stop with
    | flaw what pos =>
      cases he
      exact compile_append_of_stop hw hne hp hstop
    | digits n => cases he
  · obtain ⟨stop, hstop, he⟩ := compile_eq_error.mp he
    cases stop with
    | flaw what pos => cases he
    | digits n =>
      cases he
      exact compile_append_of_stop hw hne hp hstop

/-- A name in front of a gap and of a question mark, which is a character there; and flaws behind
the gap. -/
theorem compile_behind_pattern_name :
    let u := "$a".toList
    let w := [' ', '\t']
    let long := 'b' :: '\x7b' :: List.replicate 4301 '1'
    Gap w ∧ w ≠ [] ∧
      Pattern.compile u = .ok ⟨u, .sequence [.reference ['a'] .once none] .once⟩ ∧
      Pattern.compile (u ++ (w ++ ['?'])) = .ok ⟨u ++ (w ++ ['?']),
        .sequence [.reference ['a'] .once none, .particle ['?'] .once] .once⟩ ∧
      Pattern.compile "[b\x7b2;".toList = .error (.pattern ⟨.missing ',', "[b\x7b2;".toList, 4⟩) ∧
      Pattern.compile (u ++ (w ++ "[b\x7b2;".toList)) =
        .error (.pattern ⟨.missing ',', u ++ (w ++ "[b\x7b2;".toList), 8⟩) ∧
      Pattern.compile long = .error (.digits 4301) ∧
      Pattern.compile (u ++ (w ++ long)) = .error (.digits 4301) := by
  intro u w long
  have hw : Gap w := by simp [Gap, w]
  have hu : Pattern.compile u = .ok ⟨u, .sequence [.reference ['a'] .once none] .once⟩ := by cbv
  have hmark : Pattern.compile ['?'] = .ok ⟨['?'], .sequence [.particle ['?'] .once] .once⟩ := by
    cbv
  have hflaw : Pattern.compile "[b\x7b2;".toList =
      .error (.pattern ⟨.missing ',', "[b\x7b2;".toList, 4⟩) := by cbv
  have hlong : Pattern.compile long = .error (.digits 4301) := by
    have hnumeral : Scan.integer.Stops ⟨2, List.replicate 4301 '1'⟩ (.digits 4301) := by
      have hlen : (List.replicate 4301 '1').length = 4301 := List.length_replicate
      have hrun : (List.replicate 4301 '1') = List.replicate 4301 '1' ++ [] :=
        (List.append_nil _).symm
      have hdigit : ∀ x ∈ List.replicate 4301 '1', isDigit x = true := by
        intro x hx
        rw [List.eq_of_mem_replicate hx]
        decide
      have h := Scan.stops_integer_of_overlong (c := ⟨2, List.replicate 4301 '1'⟩) hrun hdigit
        (by simp) (by rw [hlen]; decide)
      rwa [hlen] at h
    have hbounds : Scan.bounds.Stops ⟨1, '\x7b' :: List.replicate 4301 '1'⟩ (.digits 4301) :=
      Scan.stops_bounds.mpr ⟨_, rfl, Scan.stops_bind.mpr (.inl hnumeral)⟩
    have hhalt : (Cursor.start long).Halt [.unfinished 'b'] (.digits 4301) :=
      .plain (w := []) gap_nil rfl (by decide) hbounds
    exact compile_eq_error.mpr ⟨_, Nesting.finish_of_halt hhalt _, rfl⟩
  obtain ⟨_, hts, hok, -⟩ := compile_behind_pattern (v := ['?']) hw (List.cons_ne_nil _ _) hu
  obtain ⟨_, -, -, hpattern, -⟩ :=
    compile_behind_pattern (v := "[b\x7b2;".toList) hw (List.cons_ne_nil _ _) hu
  obtain ⟨_, -, -, -, hdigits⟩ := compile_behind_pattern (v := long) hw (List.cons_ne_nil _ _) hu
  cases hts
  obtain ⟨us, hus, hok⟩ := hok _ hmark
  cases hus
  exact ⟨hw, List.cons_ne_nil _ _, hu, hok, hflaw, hpattern _ hflaw, hlong, hdigits _ hlong⟩

end Coinage
