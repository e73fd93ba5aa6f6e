import Coinage.Proofs.Pattern.Juxtaposition

/-!
# Blanks between tokens

How many spaces and tabs stand between two tokens, and which, does not matter, and in front of
brackets, references and escaped characters it does not matter whether there are any. A blank that
is escaped is a character. So where blanks may be changed is told from the left, one escaped
character after the other.
-/

namespace Coinage

namespace Grammar

/-- A text behind which a character is not escaped: read from the left, every backslash in it has
its character. -/
inductive Paired : List Char → Prop
  | nil : Paired []
  | escaped {c : Char} {u : List Char} : Paired u → Paired ('\\' :: c :: u)
  | other {x : Char} {u : List Char} : x ≠ '\\' → Paired u → Paired (x :: u)

/-- One change of the blanks that are not escaped: a run of blanks is replaced by another one, or
blanks are put at the start, at the end, or in front of a character that begins or ends a token
wherever it stands. -/
inductive Reblanked : List Char → List Char → Prop
  | run {u v w r : List Char} : Paired u → Gap v → v ≠ [] → Gap w → w ≠ [] →
      Reblanked (u ++ (v ++ r)) (u ++ (w ++ r))
  | start {w s : List Char} : Gap w → Reblanked s (w ++ s)
  | ending {w s : List Char} : Gap w → Reblanked s (s ++ w)
  | before {u w r : List Char} {x : Char} : Paired u → Gap w →
      x ∈ ['[', ']', '(', ')', '$', '\\'] → Reblanked (u ++ x :: r) (u ++ (w ++ x :: r))

/-- Any number of changes within a text, one behind the other. -/
inductive Respaced : List Char → List Char → Prop
  | nil : Respaced [] []
  | lone {w : List Char} : Gap w → Respaced ['\\'] (w ++ ['\\'])
  | escaped {w s s' : List Char} {c : Char} : Gap w → Respaced s s' →
      Respaced ('\\' :: c :: s) (w ++ '\\' :: c :: s')
  | bracket {w s s' : List Char} {x : Char} : Gap w → x ∈ ['[', ']', '(', ')', '$'] →
      Respaced s s' → Respaced (x :: s) (w ++ x :: s')
  | blanks {v w s s' : List Char} : Gap v → v ≠ [] → Gap w → w ≠ [] → Respaced s s' →
      Respaced (v ++ s) (w ++ s')
  | other {s s' : List Char} {x : Char} : x ≠ '\\' → Respaced s s' → Respaced (x :: s) (x :: s')

/-- The texts are changed behind their first character only, or behind the escaped one. -/
inductive Facing : List Char → List Char → Prop
  | nil : Facing [] []
  | lone : Facing ['\\'] ['\\']
  | escaped {s s' : List Char} {c : Char} : Respaced s s' →
      Facing ('\\' :: c :: s) ('\\' :: c :: s')
  | other {s s' : List Char} {x : Char} : x ≠ '\\' → Respaced s s' → Facing (x :: s) (x :: s')

variable {closers s s' r r' u v w : List Char} {x : Char}

theorem Respaced.refl (s : List Char) : Respaced s s := by
  induction hl : s.length using Nat.strongRecOn generalizing s with
  | ind l ih =>
    cases s with
    | nil => exact .nil
    | cons x s =>
      by_cases hx : x = '\\'
      · subst hx
        cases s with
        | nil => exact .lone gap_nil
        | cons c s =>
          exact .escaped gap_nil (ih s.length (by rw [← hl]; simp) s rfl)
      · exact .other hx (ih s.length (by rw [← hl]; simp) s rfl)

theorem Paired.respaced (hu : Paired u) (h : Respaced r r') : Respaced (u ++ r) (u ++ r') := by
  induction hu with
  | nil => exact h
  | escaped _ ih => exact .escaped gap_nil ih
  | other hx _ ih => exact .other hx ih

theorem Facing.head?_eq (h : Facing r r') : r'.head? = r.head? := by
  cases h <;> rfl

theorem Facing.of_ne (h : Facing (x :: s) r') (hx : x ≠ '\\') :
    ∃ s', r' = x :: s' ∧ Respaced s s' := by
  cases h with
  | lone => exact absurd rfl hx
  | escaped => exact absurd rfl hx
  | other _ h => exact ⟨_, rfl, h⟩

theorem Facing.of_escaped {c : Char} (h : Facing ('\\' :: c :: s) r') :
    ∃ s', r' = '\\' :: c :: s' ∧ Respaced s s' := by
  cases h with
  | escaped h => exact ⟨_, rfl, h⟩
  | other hx => exact absurd rfl hx

/-- A gap is not longer than the blanks in front of it. -/
theorem exists_of_gap_append (hv : Gap v) (hr : ∀ c ∈ r.head?, isGap c = false)
    (h : v ++ s = w ++ r) : ∃ u, w = v ++ u ∧ s = u ++ r := by
  obtain ⟨u, hw, hs⟩ | ⟨u, hv', hr'⟩ := List.append_eq_append_iff.mp h
  · exact ⟨u, hw, hs⟩
  · cases u with
    | nil => exact ⟨[], by simpa using hv'.symm, by simpa using hr'.symm⟩
    | cons c u =>
      have hc : isGap c = true := isGap_iff.mpr (hv c (by simp [hv']))
      have hnot : isGap c = false := hr c (by simp [hr'])
      rw [hc] at hnot
      cases hnot

/-- Changes leave a gap a gap, and what stands behind it. -/
theorem Respaced.exists_facing (h : Respaced s s') (hs : s = v ++ r) (hv : Gap v)
    (hr : ∀ c ∈ r.head?, isGap c = false) : ∃ v' r', s' = v' ++ r' ∧ Gap v' ∧ Facing r r' := by
  -- a character that is no blank has no gap in front of it
  have hnil {y : Char} {t v : List Char} (hy : y ≠ ' ' ∧ y ≠ '\t') (he : y :: t = v ++ r)
      (hv : Gap v) : r = y :: t := by
    cases v with
    | nil => exact he.symm
    | cons z v =>
      cases he
      exact absurd (hv y List.mem_cons_self) (by simp [hy.1, hy.2])
  induction h generalizing v with
  | nil =>
    obtain ⟨rfl, rfl⟩ := List.append_eq_nil_iff.mp hs.symm
    exact ⟨[], [], rfl, gap_nil, .nil⟩
  | @lone w hw =>
    rw [hnil (by decide) hs hv]
    exact ⟨w, _, rfl, hw, .lone⟩
  | @escaped w _ _ _ hw h =>
    rw [hnil (by decide) hs hv]
    exact ⟨w, _, rfl, hw, .escaped h⟩
  | @bracket w _ _ x hw hx h =>
    have hx' : (x ≠ ' ' ∧ x ≠ '\t') ∧ x ≠ '\\' := by
      simp only [List.mem_cons, List.not_mem_nil, or_false] at hx
      rcases hx with rfl | rfl | rfl | rfl | rfl <;> decide
    rw [hnil hx'.1 hs hv]
    exact ⟨w, _, rfl, hw, .other hx'.2 h⟩
  | @blanks v₀ w₀ s₀ s₀' hv₀ _ hw₀ _ _ ih =>
    obtain ⟨v₁, rfl, hs₁⟩ := exists_of_gap_append hv₀ hr hs
    have hv₁ : Gap v₁ := fun c hc => hv c (List.mem_append_right _ hc)
    obtain ⟨v', r', rfl, hv', hf⟩ := ih hs₁ hv₁
    exact ⟨w₀ ++ v', r', (List.append_assoc _ _ _).symm, hw₀.append hv', hf⟩
  | @other s₀ s₀' x hx h ih =>
    cases v with
    | nil =>
      obtain rfl : r = x :: s₀ := hs.symm
      exact ⟨[], _, rfl, gap_nil, .other hx h⟩
    | cons y v =>
      obtain ⟨rfl, htail⟩ := List.cons.inj hs
      obtain ⟨hy, hv⟩ := List.forall_mem_cons.mp hv
      obtain ⟨v', r', rfl, hv', hf⟩ := ih htail hv
      exact ⟨x :: v', r', rfl, List.forall_mem_cons.mpr ⟨hy, hv'⟩, hf⟩

/-- Behind a gap and a character that is no backslash the changes go on. -/
theorem Respaced.exists_behind (h : Respaced (w ++ x :: s) s') (hw : Gap w)
    (hx : x ∉ ['\\', ' ', '\t']) : ∃ w' s₁, s' = w' ++ x :: s₁ ∧ Gap w' ∧ Respaced s s₁ := by
  simp only [List.mem_cons, List.not_mem_nil, or_false, not_or] at hx
  obtain ⟨w', r', rfl, hw', hf⟩ := h.exists_facing rfl hw (by simp [isGap, hx])
  obtain ⟨s₁, rfl, hs⟩ := hf.of_ne hx.1
  exact ⟨w', s₁, rfl, hw', hs⟩

/-- A character that is no blank, and in front of which changes put none. -/
def Solid (x : Char) : Prop := x ∉ ['\\', ' ', '\t', '[', ']', '(', ')', '$']

instance : DecidablePred Solid := fun x => inferInstanceAs (Decidable (x ∉ _))

theorem solid_of_isNameChar (h : isNameChar x = true) : Solid x := by
  simp only [Solid, List.mem_cons, List.not_mem_nil, or_false]
  rintro (rfl | rfl | rfl | rfl | rfl | rfl | rfl | rfl) <;> revert h <;> decide

theorem solid_of_isDigit (h : isDigit x = true) : Solid x :=
  solid_of_isNameChar (by simp [isNameChar, h])

theorem Respaced.of_solid (h : Respaced (x :: s) s') (hx : Solid x) :
    ∃ s₁, s' = x :: s₁ ∧ Respaced s s₁ := by
  simp only [Solid, List.mem_cons, List.not_mem_nil, or_false, not_or] at hx
  generalize hs : x :: s = t at h
  cases h with
  | nil => cases hs
  | lone =>
    cases hs
    exact absurd rfl hx.1
  | escaped =>
    cases hs
    exact absurd rfl hx.1
  | bracket _ hb =>
    cases hs
    simp [hx] at hb
  | @blanks v _ _ _ hv hne =>
    obtain ⟨y, v, rfl⟩ := List.exists_cons_of_ne_nil hne
    cases hs
    exact absurd (hv x List.mem_cons_self) (by simp [hx])
  | other _ h =>
    cases hs
    exact ⟨_, rfl, h⟩

theorem Respaced.of_all_solid (h : Respaced (u ++ r) s') (hu : ∀ x ∈ u, Solid x) :
    ∃ r', s' = u ++ r' ∧ Respaced r r' := by
  induction u generalizing s' with
  | nil => exact ⟨s', rfl, h⟩
  | cons x u ih =>
    obtain ⟨hx, hu⟩ := List.forall_mem_cons.mp hu
    obtain ⟨s₁, rfl, htail⟩ := h.of_solid hx
    obtain ⟨r', rfl, hr⟩ := ih htail hu
    exact ⟨r', rfl, hr⟩

theorem Gap.mem_head?_append (hw : Gap w) (h : x ∈ (w ++ r).head?) :
    isGap x = true ∨ w = [] ∧ x ∈ r.head? := by
  cases w with
  | nil => exact .inr ⟨rfl, h⟩
  | cons y w =>
    cases h
    exact .inl (isGap_iff.mpr (hw x List.mem_cons_self))

/-- In front there is the same character as before, or a blank now. -/
theorem Respaced.mem_head? (h : Respaced r r') (hx : x ∈ r'.head?) :
    isGap x = true ∨ x ∈ r.head? := by
  cases h with
  | nil => exact .inr hx
  | lone hw => exact (hw.mem_head?_append hx).imp_right And.right
  | escaped hw => exact (hw.mem_head?_append hx).imp_right And.right
  | bracket hw => exact (hw.mem_head?_append hx).imp_right And.right
  | blanks _ _ hw hne =>
    exact (hw.mem_head?_append hx).imp_right fun h => absurd h.1 hne
  | other => exact .inr hx

/-- What is read behind a token in one text is read behind it in the other. -/
theorem Suffix.respaced {b : Bounds} (h : Suffix s b r) (hs : Respaced s s') :
    ∃ r', Suffix s' b r' ∧ Respaced r r' := by
  cases h with
  | none hmark hbrace =>
    refine ⟨s', .none (fun h => ?_) (fun h => ?_), hs⟩
    · exact (hs.mem_head? h).elim (by decide) hmark
    · exact (hs.mem_head? h).elim (by decide) hbrace
  | optional =>
    obtain ⟨r', rfl, hr⟩ := hs.of_solid (by decide)
    exact ⟨r', .optional, hr⟩
  | braces hlo hhi hle =>
    obtain ⟨_, rfl, hlower⟩ := hs.of_solid (by decide)
    obtain ⟨_, rfl, hcomma⟩ := hlower.of_all_solid fun d hd => solid_of_isDigit (hlo.digits d hd)
    obtain ⟨_, rfl, hupper⟩ := hcomma.of_solid (by decide)
    obtain ⟨_, rfl, hbrace⟩ := hupper.of_all_solid fun d hd => solid_of_isDigit (hhi.digits d hd)
    obtain ⟨r', rfl, hr⟩ := hbrace.of_solid (by decide)
    exact ⟨r', .braces hlo hhi hle, hr⟩

theorem Identifier.respaced {name : List Char} (h : Identifier name r)
    (hs : Respaced (name ++ r) s') :
    ∃ r', s' = name ++ r' ∧ Identifier name r' ∧ Respaced r r' := by
  obtain ⟨r', rfl, hr⟩ := hs.of_all_solid fun x hx =>
    solid_of_isNameChar (isNameChar_of_mem h.isIdentifier hx)
  refine ⟨r', rfl, ⟨h.isIdentifier, fun x hx => ?_⟩, hr⟩
  rcases hr.mem_head? hx with hgap | hx
  · rcases isGap_iff.mp hgap with rfl | rfl <;> decide
  · exact h.maximal x hx

/-- The tokens of a text are those of the changed text, up to the same closer. -/
theorem Tokens.respaced {ts : List Tree} (h : Tokens closers s ts r) (hs : Respaced s s')
    (hc : ∀ c ∈ closers, c = ']' ∨ c = ')') :
    ∃ r', Tokens closers s' ts r' ∧ Facing r r' := by
  -- the gap in front of each token is found again; in front of a closer it is left behind
  induction h generalizing s' with
  | @nothing closers w r hw hr =>
    obtain ⟨w', r', rfl, hw', hf⟩ := hs.exists_facing rfl hw (by
      rw [hr]
      intro c hmem
      rcases hc c (List.mem_of_mem_head? hmem) with rfl | rfl <;> rfl)
    exact ⟨r', .nothing hw' (hf.head?_eq.trans hr), hf⟩
  | escaped hw _ ih =>
    obtain ⟨w', r', rfl, hw', hf⟩ := hs.exists_facing rfl hw (by simp [isGap])
    obtain ⟨s₁, rfl, h⟩ := hf.of_escaped
    obtain ⟨r', hts, hr⟩ := ih h hc
    exact ⟨r', .escaped hw' hts, hr⟩
  | choice hw hd _ hb _ ihu ih =>
    obtain ⟨w', _, rfl, hw', h⟩ := hs.exists_behind hw (by decide)
    obtain ⟨_, hus, hf⟩ := ihu h (List.forall_mem_cons.mpr ⟨.inl rfl, hc⟩)
    obtain ⟨_, rfl, h⟩ := hf.of_ne (by decide)
    obtain ⟨_, hb, h⟩ := hb.respaced h
    obtain ⟨r', hts, hr⟩ := ih h hc
    exact ⟨r', .choice hw' hd hus hb hts, hr⟩
  | sequence hw hd _ hb _ ihu ih =>
    obtain ⟨w', _, rfl, hw', h⟩ := hs.exists_behind hw (by decide)
    obtain ⟨_, hus, hf⟩ := ihu h (List.forall_mem_cons.mpr ⟨.inr rfl, hc⟩)
    obtain ⟨_, rfl, h⟩ := hf.of_ne (by decide)
    obtain ⟨_, hb, h⟩ := hb.respaced h
    obtain ⟨r', hts, hr⟩ := ih h hc
    exact ⟨r', .sequence hw' hd hus hb hts, hr⟩
  | reference hw hn hb _ ih =>
    obtain ⟨w', _, rfl, hw', h⟩ := hs.exists_behind hw (by decide)
    obtain ⟨_, rfl, hn, h⟩ := hn.respaced h
    obtain ⟨_, hb, h⟩ := hb.respaced h
    obtain ⟨r', hts, hr⟩ := ih h hc
    exact ⟨r', .reference hw' hn hb hts, hr⟩
  | plain hw hx hb _ ih =>
    have hblank : ['\\', ' ', '\t'] ⊆ ['\\', '[', '(', '$', ' ', '\t'] := by simp
    obtain ⟨w', _, rfl, hw', h⟩ := hs.exists_behind hw fun h => hx.not_special (hblank h)
    obtain ⟨_, hb, h⟩ := hb.respaced h
    obtain ⟨r', hts, hr⟩ := ih h hc
    exact ⟨r', .plain hw' hx hb hts, hr⟩

end Grammar

open Grammar

variable {s s' : List Char} {t : Tree}

theorem compile_of_respaced (hs : Respaced s s') (h : Pattern.compile s = .ok ⟨s, t⟩) :
    Pattern.compile s' = .ok ⟨s', t⟩ := by
  obtain ⟨-, ts, hts, hroot⟩ := derives_of_compile h
  obtain ⟨r', hts', hr⟩ := hts.respaced hs (by simp)
  cases hr
  exact compile_of_derives ⟨ts, hts', hroot⟩

theorem compile_of_reblanked (hs : Reblanked s s') (h : Pattern.compile s = .ok ⟨s, t⟩) :
    Pattern.compile s' = .ok ⟨s', t⟩ := by
  cases hs with
  | run hu hv hvne hw hwne =>
    exact compile_of_respaced (hu.respaced (.blanks hv hvne hw hwne (.refl _))) h
  | start hw =>
    obtain ⟨-, ts, hts, hroot⟩ := derives_of_compile h
    exact compile_of_derives ⟨ts, hts.of_gap hw, hroot⟩
  | @ending w _ hw =>
    by_cases hne : w = []
    · simpa [hne] using h
    · have hempty : Pattern.compile [] = .ok ⟨[], .sequence [] ⟨1, 1⟩⟩ := by cbv
      obtain ⟨ts, us, rfl, hus, hboth⟩ := compile_append hw hne h hempty
      cases hus
      simpa using hboth
  | @before u w r x hu hw hx =>
    refine compile_of_respaced (hu.respaced ?_) h
    by_cases hslash : x = '\\'
    · subst hslash
      cases r with
      | nil => exact .lone hw
      | cons c r => exact .escaped hw (.refl r)
    · exact .bracket hw (by simpa [hslash] using hx) (.refl r)

/-- Blanks between tokens are ignored. Where a pattern compiles, it compiles to the same root after
any number of changes that replace runs of blanks which are not escaped, or put blanks at the start,
at the end, and in front of brackets, references and escaped characters. -/
theorem blanks_between_tokens_are_ignored {p : Pattern} (h : Pattern.compile s = .ok p)
    (hs : Relation.ReflTransGen Reblanked s s') :
    Pattern.compile s' = .ok ⟨s', p.root⟩ := by
  obtain ⟨hsource, -⟩ := derives_of_compile h
  obtain ⟨_, t⟩ := p
  obtain rfl : _ = s := hsource
  induction hs with
  | refl => exact h
  | tail _ hchange ih => exact compile_of_reblanked hchange ih

/-- An escaped blank with a blank behind it, and a closer that stands for itself. -/
theorem blanks_between_tokens_are_ignored_escaped :
    let s := ['a', '\\', ' ', ' ', ']', '?', '$', 'b']
    let s' := ['\t', 'a', '\\', ' ', '\t', '\t', ']', '?', ' ', '$', 'b', ' ']
    let t : Tree := .sequence [.particle ['a'] ⟨1, 1⟩, .particle [' '] ⟨1, 1⟩,
      .particle [']'] ⟨0, 1⟩, .reference ['b'] ⟨1, 1⟩ none] ⟨1, 1⟩
    Relation.ReflTransGen Reblanked s s' ∧ Pattern.compile s = .ok ⟨s, t⟩ ∧
      Pattern.compile s' = .ok ⟨s', t⟩ := by
  intro s s' t
  have hpaired : Paired ['a', '\\', ' '] := .other (by decide) (.escaped .nil)
  have hsolid : Paired ['\t', '\t', ']', '?'] :=
    .other (by decide) (.other (by decide) (.other (by decide) (.other (by decide) .nil)))
  have hrun : Reblanked s ['a', '\\', ' ', '\t', '\t', ']', '?', '$', 'b'] :=
    .run hpaired gap_space (by simp) (w := ['\t', '\t']) (by simp [Gap]) (by simp)
  have hbefore : Reblanked ['a', '\\', ' ', '\t', '\t', ']', '?', '$', 'b']
      ['a', '\\', ' ', '\t', '\t', ']', '?', ' ', '$', 'b'] :=
    .before (.other (by decide) (.escaped hsolid)) gap_space (by simp)
  have hstart : Reblanked ['a', '\\', ' ', '\t', '\t', ']', '?', ' ', '$', 'b']
      ['\t', 'a', '\\', ' ', '\t', '\t', ']', '?', ' ', '$', 'b'] :=
    .start (w := ['\t']) (by simp [Gap])
  have hending : Reblanked ['\t', 'a', '\\', ' ', '\t', '\t', ']', '?', ' ', '$', 'b'] s' :=
    .ending (s := ['\t', 'a', '\\', ' ', '\t', '\t', ']', '?', ' ', '$', 'b']) gap_space
  have hs : Pattern.compile s = .ok ⟨s, t⟩ := by cbv
  have hchanges : Relation.ReflTransGen Reblanked s s' :=
    .head hrun (.head hbefore (.head hstart (.single hending)))
  exact ⟨hchanges, hs, blanks_between_tokens_are_ignored hs hchanges⟩

end Coinage
