import Coinage.Proofs.Pattern.Halts
import Mathlib

/-!
# The places of flaws

A text that is no pattern is refused at the first place from which on it cannot become one: what
stands in front of the place can be extended to a pattern, and unless the place is the end, the text
is refused in the same way whatever follows. The reading is followed lexeme by lexeme, with the
assurance that what has been read can still be extended.
-/

namespace Coinage

open Grammar

/-- What stands in front of the place can be extended to a pattern. -/
structure Grammar.ExtendableAt (s : List Char) (p : Nat) : Prop where
  le_length : p ≤ s.length
  exists_derives : ∃ w t, Derives (s.take p ++ w) t

theorem Grammar.extendableAt_length {v w : List Char} {t : Tree} (h : Derives (v ++ w) t)
    (r : List Char) : ExtendableAt (v ++ r) v.length :=
  ⟨by simp, w, t, by rwa [List.take_left]⟩

namespace Nesting

variable {n n' : Nesting} {c c' : Cursor} {x : Lexeme} {e : Stop} {pre : List Char}

/-- A text that closes the groups, innermost first. Each of them gets a child, so that none is an
alternation with nothing to choose from. -/
def closing : List OpenGroup → List Char
  | [] => [' ']
  | g :: gs => ' ' :: '\\' :: 'a' :: g.kind.closer :: closing gs

@[simp] theorem head?_closing (gs : List OpenGroup) : (closing gs).head? = some ' ' := by
  cases gs with
  | nil => rfl
  | cons g gs => rfl

/-- The closing text completes whatever is open, also behind a gap. -/
theorem exists_completes {w : List Char} (hw : Gap w) (gs : List OpenGroup) (nodes : List Tree) :
    ∃ t, Completes gs nodes (w ++ closing gs) t := by
  have hspace : Gap (w ++ [' ']) := hw.append gap_space
  induction gs generalizing nodes w with
  | nil =>
    have hts : Tokens [] ((w ++ [' ']) ++ []) [] [] := .nothing hspace rfl
    exact ⟨_, [], by simpa [closing] using hts, rfl⟩
  | cons g gs ih =>
    let u : Tree := .particle ['a'] ⟨1, 1⟩
    obtain ⟨t, ht⟩ := ih gap_nil (g.kind.node (u :: nodes).reverse ⟨1, 1⟩ :: g.before) gap_space
    have hclose : Completes (g :: gs) (u :: nodes) (g.kind.closer :: closing gs) t :=
      .closer gap_nil (by simp) (suffix_none (head?_closing gs)) ht
    refine ⟨t, hclose.cons fun ts r hts => ?_⟩
    have hx : Tokens _ ((w ++ [' ']) ++ '\\' :: 'a' :: g.kind.closer :: closing gs) (u :: ts) r :=
      .escaped hspace hts
    simpa [closing] using hx

/-- `pre` has been read and `r` is left: what completes the open groups and can stand in the place
of `r` makes a pattern of `pre`, and the text can be extended at the place of every open group. -/
structure Reached (n : Nesting) (pre r : List Char) : Prop where
  derives : ∀ s t, Replaces s r → Completes n.groups n.nodes s t → Derives (pre ++ s) t
  groups : ∀ g ∈ n.groups, ExtendableAt (pre ++ r) g.pos

theorem reached_start (s : List Char) : Reached start [] s where
  derives := by
    rintro s t - ⟨ts, hts, rfl⟩
    exact ⟨ts, hts, rfl⟩
  groups := by simp [start]

/-- The text can be extended behind a gap. -/
theorem Reached.extendableAt {w r : List Char} (h : n.Reached pre (w ++ r)) (hw : Gap w) :
    ExtendableAt (pre ++ (w ++ r)) (pre.length + w.length) := by
  obtain ⟨t, ht⟩ := exists_completes hw n.groups n.nodes
  have hd := h.derives _ t (Replaces.append w (.inl (head?_closing n.groups))) ht
  rw [← List.append_assoc] at hd
  rw [← List.append_assoc, ← List.length_append]
  exact extendableAt_length hd r

theorem Reached.extendableAt_opener {kind : GroupKind} {pos : Nat} (h : n.Reached pre c.rest)
    (hp : c.pos = pre.length) (hx : c.Front (.opener kind pos) c') :
    ExtendableAt (pre ++ c.rest) pos := by
  cases hx with
  | opener hw hs =>
    rw [hs] at h ⊢
    rw [hp]
    exact h.extendableAt hw

/-- A lexeme opens no group but its own. -/
theorem mem_groups_of_read {g : OpenGroup} (h : n.read x = .ok n') (hg : g ∈ n'.groups) :
    g ∈ n.groups ∨ ∃ kind, x = .opener kind g.pos := by
  cases x with
  | opener kind pos =>
    simp only [read] at h
    split at h
    · cases h
      rcases List.mem_cons.mp hg with rfl | hg
      · exact .inr ⟨kind, rfl⟩
      · exact .inl hg
    · cases h
  | literal y =>
    cases h
    exact .inl hg
  | reference name b =>
    cases h
    exact .inl hg
  | plain y b =>
    simp only [read] at h
    split at h
    · cases h
      exact .inl hg
    · rename_i hc
      obtain ⟨hgs, -⟩ := closedBy?_eq_some.mp hc
      obtain ⟨u, -, h⟩ := except_bind_eq_ok.mp h
      cases h
      exact .inl (hgs ▸ List.mem_cons_of_mem _ hg)
  | unfinished y =>
    rw [read_unfinished] at h
    obtain ⟨m, -, h⟩ := except_bind_eq_ok.mp h
    cases h
    exact .inl hg

/-- One lexeme: what has been read can still be extended behind it. -/
theorem Reached.step (h : n.Reached pre c.rest) (hp : c.pos = pre.length) (hx : c.Front x c')
    (hr : n.read x = .ok n') : ∃ v, c.rest = v ++ c'.rest ∧ c'.pos = (pre ++ v).length ∧
      n'.Reached (pre ++ v) c'.rest := by
  obtain ⟨v, hv, hs, hpos, hrep⟩ := hx.replace
  refine ⟨v, hs, by simp [hpos, hp], fun s t hst ht => ?_, fun g hg => ?_⟩
  · rw [List.append_assoc]
    refine h.derives _ t (hs ▸ hst.append v) ?_
    exact Completes.of_read (hrep s hst) hr ht
  · rw [List.append_assoc, ← hs]
    rcases mem_groups_of_read hr hg with hg | ⟨kind, rfl⟩
    · exact h.groups g hg
    · exact h.extendableAt_opener hp hx

/-- Reading stops at a place of the text at which it can be extended, and unless the place is the
end, reading stops in the same way whatever text follows. -/
def StopsFirmly (n : Nesting) (pre : List Char) (c : Cursor) (e : Stop) : Prop :=
  ∃ what p, e = .flaw what p ∧ ExtendableAt (pre ++ c.rest) p ∧
    (p < c.endPos → c.rest ≠ [] ∧ ∀ w, n.finish ⟨c.pos, c.rest ++ w⟩ = .error e)

@[simp] theorem node_eq_error {g : OpenGroup} {ts : List Tree} {b : Bounds} :
    OpenGroup.node g ts b = .error e ↔
      g.kind = .choice ∧ ts = [] ∧ e = .flaw .emptyChoice g.pos := by
  obtain ⟨kind, pos, before⟩ := g
  cases kind <;> cases ts <;> simp [OpenGroup.node, @eq_comm _ e]

/-- The character would close an alternation that has nothing to choose from. -/
def ClosesEmpty (n : Nesting) (y : Char) (e : Stop) : Prop :=
  ∃ g gs, n = ⟨[], g :: gs⟩ ∧ g.kind = .choice ∧ y = ']' ∧ e = .flaw .emptyChoice g.pos

@[simp] theorem read_plain_eq_error {y : Char} {b : Bounds} :
    n.read (.plain y b) = .error e ↔ n.ClosesEmpty y e := by
  constructor
  · intro h
    obtain ⟨nodes, groups⟩ := n
    simp only [read] at h
    split at h
    · cases h
    · rename_i g gs hc
      obtain ⟨rfl, rfl⟩ := closedBy?_eq_some.mp hc
      rcases except_bind_eq_error.mp h with h | ⟨u, -, h⟩
      · obtain ⟨hk, hnil, rfl⟩ := node_eq_error.mp h
        obtain rfl := List.reverse_eq_nil_iff.mp hnil
        exact ⟨g, gs, rfl, hk, by rw [hk]; rfl, rfl⟩
      · cases h
  · rintro ⟨g, gs, rfl, hk, rfl, rfl⟩
    have hc : closedBy? ']' (g :: gs) = some (g, gs) :=
      closedBy?_eq_some.mpr ⟨rfl, by rw [hk]; rfl⟩
    have hnode : OpenGroup.node g [] b = .error (.flaw .emptyChoice g.pos) :=
      node_eq_error.mpr ⟨hk, rfl, rfl⟩
    simp only [read, hc, List.reverse_nil, hnode]
    rfl

@[simp] theorem read_unfinished_eq_error {y : Char} :
    n.read (.unfinished y) = .error e ↔ n.ClosesEmpty y e := by
  rw [read_unfinished, except_bind_eq_error, read_plain_eq_error]
  simp

/-- An alternation that is closed at once is refused, whatever follows. -/
theorem ClosesEmpty.finish {y : Char} {w : List Char} (h : n.ClosesEmpty y e) (hw : Gap w)
    (pos : Nat) (s : List Char) : n.finish ⟨pos, w ++ y :: s⟩ = .error e := by
  have hs : Cursor.rest ⟨pos, w ++ y :: s⟩ = w ++ y :: s := rfl
  have hy : y ∉ ['\\', '[', '(', '$', ' ', '\t'] := by
    obtain ⟨g, gs, -, -, rfl, -⟩ := h
    decide
  rcases Cursor.front_or_halt_of_plain hw hs hy with ⟨b, c', hx⟩ | ⟨e', hh⟩
  · rw [finish_of_front hx, read_plain_eq_error.mpr h]
    rfl
  · rw [finish_of_halt hh, List.foldlM_cons, read_unfinished_eq_error.mpr h]
    rfl

/-- At the end of the text reading stops only because a group is open. -/
theorem eq_unexpectedEnd_of_gap (hw : Gap c.rest) (h : n.finish c = .error e) :
    e = .flaw .unexpectedEnd c.endPos := by
  rw [finish_of_gap hw] at h
  obtain ⟨nodes, groups⟩ := n
  cases groups with
  | nil => cases h
  | cons g gs =>
    cases h
    rfl

/-- What is open there can be closed. -/
theorem Reached.stopsFirmly_of_gap (h : n.Reached pre c.rest) (hp : c.pos = pre.length)
    (hw : Gap c.rest) (he : n.finish c = .error e) : n.StopsFirmly pre c e := by
  refine ⟨_, _, eq_unexpectedEnd_of_gap hw he, ?_, fun hlt => absurd hlt (Nat.lt_irrefl _)⟩
  rw [← List.append_nil c.rest] at h ⊢
  rw [Cursor.endPos, hp]
  exact h.extendableAt hw

theorem Reached.stopsFirmly_of_closesEmpty {y : Char} {w s : List Char}
    (h : n.Reached pre c.rest) (hy : n.ClosesEmpty y e) (hw : Gap w) (hs : c.rest = w ++ y :: s) :
    n.StopsFirmly pre c e := by
  have ⟨g, gs, hn, _, _, he⟩ := hy
  have hg : g ∈ n.groups := by
    rw [hn]
    exact List.mem_cons_self
  refine ⟨_, _, he, h.groups g hg, fun _ => ⟨by simp [hs], fun t => ?_⟩⟩
  rw [hs, List.append_assoc]
  exact hy.finish hw c.pos (s ++ t)

/-- Reading stops at a lexeme that cannot be read. -/
theorem Reached.stopsFirmly_of_read (h : n.Reached pre c.rest) (hp : c.pos = pre.length)
    (hx : c.Front x c') (hr : n.read x = .error e) : n.StopsFirmly pre c e := by
  have hx₀ := hx
  cases hx with
  | literal => cases hr
  | reference => cases hr
  | plain hw hs => exact h.stopsFirmly_of_closesEmpty (read_plain_eq_error.mp hr) hw hs
  | @opener w r kind hw hs =>
    have he : e = .flaw .tooDeep (c.pos + w.length) := by
      simp only [read] at hr
      split at hr
      · cases hr
      · cases hr
        rfl
    refine ⟨_, _, he, h.extendableAt_opener hp hx₀, fun _ => ⟨by simp [hs], fun t => ?_⟩⟩
    have hxt : Cursor.Front ⟨c.pos, c.rest ++ t⟩ (.opener kind (c.pos + w.length)) _ :=
      .opener (r := r ++ t) hw (by simp [hs])
    rw [finish_of_front hxt, hr]
    rfl

/-- If what is kept of a lexeme can be read, so can the lexeme. -/
theorem read_of_broken {xs : List Lexeme} (hx : x.Broken xs)
    (hr : xs.foldlM Nesting.read n = .ok n') : ∃ n₁, n.read x = .ok n₁ := by
  cases hx with
  | literal => exact ⟨_, rfl⟩
  | reference => exact ⟨_, rfl⟩
  | @plain y b =>
    cases hb : n.read (.plain y b) with
    | ok n₁ => exact ⟨n₁, rfl⟩
    | error e =>
      have he := read_unfinished_eq_error.mpr (read_plain_eq_error.mp hb)
      rw [List.foldlM_cons, he] at hr
      cases hr

/-- Reading stops where there is no lexeme. -/
theorem Reached.stopsFirmly_of_halt {xs : List Lexeme} {e₁ : Stop} (h : n.Reached pre c.rest)
    (hp : c.pos = pre.length) (hshort : ShortRuns c.rest) (hh : c.Halt xs e₁)
    (he : n.finish c = .error e) : n.StopsFirmly pre c e := by
  rw [finish_of_halt hh] at he
  rcases except_bind_eq_error.mp he with hr | ⟨n₁, hr, he⟩
  · cases hh with
    | escape => cases hr
    | name => cases hr
    | reference => cases hr
    | plain hw hs =>
      simp only [List.foldlM_cons, List.foldlM_nil, bind_pure] at hr
      exact h.stopsFirmly_of_closesEmpty (read_unfinished_eq_error.mp hr) hw hs
  · cases he
    obtain ⟨v, what, r, x, y, hs, hv, rfl, hx, hmend⟩ := hh.mend hshort
    refine ⟨what, _, rfl, ?_, fun hlt => ⟨by simp [hs, hv], fun w => ?_⟩⟩
    · obtain ⟨n', hread⟩ := read_of_broken hx hr
      obtain ⟨t, ht⟩ := exists_completes gap_nil n'.groups n'.nodes
      obtain ⟨d, hf, hd⟩ := hmend _ (head?_closing n'.groups)
      have hc : Completes n.groups n.nodes (v ++ (y ++ closing n'.groups)) t :=
        .of_read hf hread (hd ▸ ht)
      have hder := h.derives _ t (hs ▸ replaces_of_ne_nil hv _ _) hc
      rw [← List.append_assoc] at hder
      rw [hs, hp, ← List.append_assoc, ← List.length_append]
      exact extendableAt_length hder r
    · rw [finish_of_halt (hh.append hshort hlt w), hr]
      rfl

/-- Whatever reading stops for, it stops at a place where the text can be extended. -/
theorem Reached.stopsFirmly (h : n.Reached pre c.rest) (hp : c.pos = pre.length)
    (hshort : ShortRuns c.rest) (he : n.finish c = .error e) : n.StopsFirmly pre c e := by
  -- on the text that is left, which every lexeme makes shorter
  induction hl : c.rest.length using Nat.strongRecOn generalizing n pre c with
  | ind l ih =>
    rcases c.front_cases with hw | ⟨x, c', hx⟩ | ⟨xs, e₁, hh⟩
    · exact h.stopsFirmly_of_gap hp hw he
    · rw [finish_of_front hx] at he
      rcases except_bind_eq_error.mp he with hr | ⟨n', hr, he⟩
      · exact h.stopsFirmly_of_read hp hx hr
      · obtain ⟨v, hs, hp', h'⟩ := h.step hp hx hr
        have hshort' : ShortRuns c'.rest := hshort.of_suffix ⟨v, hs.symm⟩
        obtain ⟨what, p, hep, hext, hfirm⟩ := ih _ (hl ▸ hx.length_lt) h' hp' hshort' he rfl
        rw [List.append_assoc, ← hs] at hext
        refine ⟨what, p, hep, hext, fun hlt => ?_⟩
        obtain ⟨hne, hw⟩ := hfirm (hx.endPos_eq ▸ hlt)
        refine ⟨by simp [hs, hne], fun w => ?_⟩
        rw [finish_of_front (hx.append hne w), hr]
        exact hw w
    · exact h.stopsFirmly_of_halt hp hshort hh he

end Nesting

theorem exists_compile_iff {s : List Char} :
    (∃ q, Pattern.compile s = .ok q) ↔ ∃ t, Derives s t := by
  constructor
  · rintro ⟨q, hq⟩
    exact ⟨q.root, (derives_of_compile hq).2⟩
  · rintro ⟨t, ht⟩
    exact ⟨_, compile_of_derives ht⟩

/-- A text in which no more than 2000 digits stand in a row is refused, if it is, for a flaw at a
place of it: the part in front can be extended to a pattern, and unless the place is the end, every
extension of the text is refused for the same flaw at the same place. So the place is the end
exactly if some extension of the text is a pattern. -/
theorem refused_behind_extendable_prefix {u : List Char} (hu : ShortRuns u) {e : Refusal}
    (h : Pattern.compile u = .error e) :
    ∃ what p, e = .pattern ⟨what, u, p⟩ ∧ p ≤ u.length ∧
      (∃ w q, Pattern.compile (u.take p ++ w) = .ok q) ∧
      (p < u.length → ∀ w, Pattern.compile (u ++ w) = .error (.pattern ⟨what, u ++ w, p⟩)) ∧
      (p = u.length ↔ ∃ w q, Pattern.compile (u ++ w) = .ok q) := by
  obtain ⟨stop, hstop, rfl⟩ := compile_eq_error.mp h
  obtain ⟨what, p, rfl, ⟨hle, w, t, hder⟩, hfirm⟩ :=
    (Nesting.reached_start u).stopsFirmly (c := .start u) rfl hu hstop
  have hle : p ≤ u.length := hle
  have hext : ∃ w q, Pattern.compile (u.take p ++ w) = .ok q :=
    ⟨w, exists_compile_iff.mpr ⟨t, hder⟩⟩
  have hend : (Cursor.start u).endPos = u.length := Nat.zero_add _
  have hsame (hlt : p < u.length) (w : List Char) :
      Pattern.compile (u ++ w) = .error (.pattern ⟨what, u ++ w, p⟩) := by
    rw [← hend] at hlt
    exact compile_eq_error.mpr ⟨_, (hfirm hlt).2 w, rfl⟩
  refine ⟨what, p, rfl, hle, hext, hsame, ?_, ?_⟩
  · rintro rfl
    rwa [List.take_length] at hext
  · rintro ⟨w, q, hq⟩
    by_contra hne
    rw [hsame (by omega) w] at hq
    cases hq

/-- A semicolon in the place of a comma, in a group that is still open. -/
theorem refused_behind_extendable_prefix_semicolon :
    Pattern.compile "[a\x7b2;3".toList =
        .error (.pattern ⟨.missing ',', "[a\x7b2;3".toList, 4⟩) ∧
      (∃ w q, Pattern.compile ("[a\x7b2".toList ++ w) = .ok q) ∧
      ∀ w, Pattern.compile ("[a\x7b2;3".toList ++ w) =
        .error (.pattern ⟨.missing ',', "[a\x7b2;3".toList ++ w, 4⟩) := by
  have hlen : "[a\x7b2;3".toList.length = 6 := by cbv
  have hu : ShortRuns "[a\x7b2;3".toList := fun ds hds _ => by
    have hle := hds.length_le
    omega
  have hc : Pattern.compile "[a\x7b2;3".toList =
      .error (.pattern ⟨.missing ',', "[a\x7b2;3".toList, 4⟩) := by cbv
  obtain ⟨what, p, he, -, hext, hsame, -⟩ := refused_behind_extendable_prefix hu hc
  cases he
  exact ⟨hc, hext, hsame (by omega)⟩

end Coinage
