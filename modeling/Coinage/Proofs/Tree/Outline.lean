import Coinage.CommandLine.Outcome
import Coinage.Proofs.Pattern.Suffixes
import Coinage.Proofs.Text.Blank
import Coinage.Proofs.Text.Numeral
import Coinage.Proofs.Text.Quoted
import Coinage.Proofs.Tree.Preorder
import Coinage.Tree.Outline

/-!
# Outlines are read back

The lines of an outline belong to the nodes of the tree, one to each, in the order in which the
nodes are met. What stands in a line behind the spaces tells the node but for its children, and the
number of spaces tells its level. So the children of a node are what follows it up to the first line
that is indented no deeper, and the outline tells the tree.
-/

namespace Coinage

open Grammar

/-- Lines without line feeds are found again in their text. -/
theorem lines_inj {ls ms : List (List Char)} (hls : ∀ l ∈ ls, '\n' ∉ l) (hms : ∀ m ∈ ms, '\n' ∉ m)
    (h : lines ls = lines ms) : ls = ms := by
  have hfront {l : List Char} (hl : '\n' ∉ l) (r : List Char) :
      (l ++ '\n' :: r).takeWhile (· ≠ '\n') = l :=
    takeWhile_append_of_stop (fun x hx => by simpa using ne_of_mem_of_not_mem hx hl) (by simp)
  induction ls generalizing ms with
  | nil =>
    cases ms with
    | nil => rfl
    | cons m ms => simp [lines] at h
  | cons l ls ih =>
    cases ms with
    | nil => simp [lines] at h
    | cons m ms =>
      obtain ⟨hl, htl⟩ := List.forall_mem_cons.mp hls
      obtain ⟨hm, htm⟩ := List.forall_mem_cons.mp hms
      have h' : l ++ '\n' :: lines ls = m ++ '\n' :: lines ms := by simpa [lines] using h
      obtain rfl : l = m := by rw [← hfront hl (lines ls), h', hfront hm]
      have htail : lines ls = lines ms := List.tail_eq_of_cons_eq (List.append_cancel_left h')
      rw [ih htl htm htail]

/-- No text begins with two suffixes. -/
theorem Grammar.Suffix.unique {s r : List Char} {b b' : Bounds} (h : Suffix s b r)
    (h' : Suffix s b' r) : b = b' := by
  have hread {b : Bounds} (h : Suffix s b r) :
      Scan.bounds ⟨0, s⟩ = .ok b ⟨s.length - r.length, r⟩ := by
    refine Scan.bounds_eq_ok.mpr ⟨h, ?_⟩
    have hle := h.length_le
    simp only [Cursor.endPos_mk]
    omega
  cases (hread h).symm.trans (hread h')
  rfl

namespace Bounds

theorem Writable.suffix_read {b : Bounds} (h : b.Writable) : Suffix b.suffix b [] := by
  have hread : Suffix (b.suffix ++ []) b [] := h.suffix_append fun _ => ⟨by decide, by decide⟩
  rwa [List.append_nil] at hread

theorem Writable.suffix_inj {b b' : Bounds} (h : b.Writable) (h' : b'.Writable)
    (heq : b.suffix = b'.suffix) : b = b' :=
  h.suffix_read.unique (heq ▸ h'.suffix_read)

theorem not_isBlank_of_mem_suffix {b : Bounds} {c : Char} (h : c ∈ b.suffix) :
    isBlank c = false := by
  have hnumeral {i : Int} (h : c ∈ signedDecimal i) : isBlank c = false := by
    obtain rfl | hdigit := eq_or_isDigit_of_mem_signedDecimal h
    · decide
    · have hlt : c.toNat < 128 := Nat.lt_of_le_of_lt (toNat_of_isDigit hdigit).2 (by decide)
      exact not_isBlank_of_isNameChar (by simp [isNameChar, isDigit, digitValue?, hdigit, hlt])
  unfold suffix at h
  split at h
  · cases h
  · split at h
    · rw [List.mem_singleton.mp h]
      decide
    · simp only [List.mem_cons, List.mem_append, List.not_mem_nil, or_false] at h
      obtain rfl | h | rfl | h | rfl := h
      · decide
      · exact hnumeral h
      · decide
      · exact hnumeral h
      · decide

end Bounds

namespace Tree

/-- A tree without slots and strays whose bounds can be written and whose names are identifiers. -/
inductive Legible : Tree → Prop
  | particle {v : List Char} {b : Bounds} : b.Writable → Legible (particle v b)
  | reference {name : Name} {b : Bounds} : b.Writable → isIdentifier name = true →
      Legible (reference name b none)
  | choice {ts : List Tree} {b : Bounds} : b.Writable → (∀ t ∈ ts, Legible t) →
      Legible (choice ts b)
  | sequence {ts : List Tree} {b : Bounds} : b.Writable → (∀ t ∈ ts, Legible t) →
      Legible (sequence ts b)

theorem Writable.legible {closer : Option Char} {t : Tree} (h : t.Writable closer) :
    t.Legible := by
  induction h with
  | particle hb => exact .particle hb
  | reference hb hname => exact .reference hb hname
  | choice hb _ _ ih => exact .choice hb ih
  | sequence hb _ ih => exact .sequence hb ih

theorem IsPatternRoot.legible {t : Tree} (h : t.IsPatternRoot) : t.Legible := by
  obtain ⟨ts, rfl, hts⟩ := h
  exact .sequence (Bounds.writable_of_lt_hundred (by decide) (by decide) (by decide))
    fun u hu => (hts u hu).1.legible

theorem Legible.of_mem_children {t u : Tree} (h : t.Legible) (hu : u ∈ t.children) :
    u.Legible := by
  cases h with
  | particle => cases hu
  | reference => cases hu
  | choice _ h => exact h u hu
  | sequence _ h => exact h u hu

theorem Legible.isProper {t : Tree} (h : t.Legible) : t.isProper = true := by
  induction h with
  | particle => rfl
  | reference => rfl
  | choice _ _ ih => exact areProper_iff.mpr ih
  | sequence _ _ ih => exact areProper_iff.mpr ih

/-- The word for the kind of a node, and a space if something belongs to the word. -/
def kind : Tree → String
  | particle .. => "PARTICLE "
  | reference .. => "PRODUCTION "
  | choice .. => "ALT"
  | sequence .. => "SEQ"
  | stray _ => ""

/-- How the value of a node is shown, or its name. -/
def value : Tree → List Char
  | particle v _ => quoted v
  | reference name _ _ => name
  | _ => []

/-- A suffix, and a space in front of it if there is one. -/
def spaced : List Char → List Char
  | [] => []
  | c :: s => ' ' :: c :: s

/-- What stands for a node in its line. It says all of the node but its children. -/
def label (t : Tree) : List Char := t.kind.toList ++ (t.value ++ spaced t.bounds.suffix)

def line (n : Nat × Tree) : List Char := List.replicate (2 * n.1) ' ' ++ n.2.label

@[simp] theorem outlineAll_eq_flatMap (level : Int) (ts : List Tree) :
    outlineAll level ts = ts.flatMap (outline level) := by
  induction ts with
  | nil => rfl
  | cons t ts ih => simp [outlineAll, ih]

theorem mem_spaced {c : Char} {s : List Char} (h : c ∈ spaced s) : c = ' ' ∨ c ∈ s := by
  cases s with
  | nil => cases h
  | cons d s => exact List.mem_cons.mp h

theorem spaced_inj {s s' : List Char} (h : spaced s = spaced s') : s = s' := by
  cases s <;> cases s' <;> simp_all [spaced]

theorem outline_eq {t : Tree} (h : t.isProper = true) (level : Int) :
    t.outline level = outlineLine level (t.kind.toList ++ t.value ++ ' ' :: t.bounds.suffix) ::
      t.children.flatMap (outline (level + 1)) := by
  cases t with
  | particle v b => simp [outline, kind, value, bounds, children]
  | reference name b slot => simp [outline, kind, value, bounds, children]
  | choice ts b => simp [outline, kind, value, bounds, children]
  | sequence ts b => simp [outline, kind, value, bounds, children]
  | stray b => cases h

/-- A text that ends in something else than white space stays in a line. -/
theorem outlineLine_spaced {s : List Char} (hs : ∃ cs c, s = cs ++ [c] ∧ isBlank c = false)
    (level : Nat) (b : Bounds) :
    outlineLine level (s ++ ' ' :: b.suffix) =
      List.replicate (2 * level) ' ' ++ (s ++ spaced b.suffix) := by
  have hlevel : (2 * (level : Int)).toNat = 2 * level := by omega
  rw [outlineLine, hlevel]
  cases hb : b.suffix with
  | nil =>
    obtain ⟨cs, c, rfl, hc⟩ := hs
    have hpos (cs : List Char) : trimRight isBlank (cs ++ [' ']) = trimRight isBlank cs :=
      List.rdropWhile_concat_pos _ _ _ (by decide)
    have hneg (cs : List Char) : trimRight isBlank (cs ++ [c]) = cs ++ [c] :=
      List.rdropWhile_concat_neg _ _ _ (by simp [hc])
    rw [← List.append_assoc, hpos, ← List.append_assoc, hneg]
    simp [spaced]
  | cons d s =>
    refine trimRight_of_getLast? fun x hx => ?_
    have hx : x ∈ (d :: s).getLast? := by simpa using hx
    exact Bounds.not_isBlank_of_mem_suffix (hb ▸ List.mem_of_getLast? hx)

theorem Legible.exists_last {t : Tree} (h : t.Legible) :
    ∃ cs c, t.kind.toList ++ t.value = cs ++ [c] ∧ isBlank c = false := by
  cases h with
  | @particle v _ =>
    refine ⟨_, _, (List.append_assoc _ (_ :: _) [_]).symm, ?_⟩
    obtain hq | hq := Quoted.isMark_mark v <;> rw [hq] <;> decide
  | @reference name _ _ hname =>
    have hne : name ≠ [] := by rintro rfl; cases hname
    obtain ⟨cs, c, rfl⟩ := (List.eq_nil_or_concat' name).resolve_left hne
    exact ⟨_, c, (List.append_assoc _ cs [c]).symm,
      not_isBlank_of_isNameChar (isNameChar_of_mem hname (by simp))⟩
  | choice => exact ⟨['A', 'L'], 'T', by simp [kind, value], by decide⟩
  | sequence => exact ⟨['S', 'E'], 'Q', by simp [kind, value], by decide⟩

/-- An outline has one line for every node, in the order of the nodes. -/
theorem Legible.outline_eq_map_line {t : Tree} (h : t.Legible) (level : Nat) :
    t.outline level = (t.preorder level).map line := by
  induction t using induct_children generalizing level with
  | step t ih =>
    rw [outline_eq h.isProper, outlineLine_spaced h.exists_last, preorder_eq, List.map_cons, line,
      label, List.append_assoc t.kind.toList, List.map_flatMap]
    refine congrArg _ (List.flatMap_congr fun u hu => ?_)
    exact_mod_cast ih u hu (h.of_mem_children hu) (level + 1)

/-- The only white space in a line are plain spaces. -/
theorem Legible.eq_space_of_mem_label {t : Tree} (h : t.Legible) {c : Char} (hc : c ∈ t.label)
    (hblank : isBlank c = true) : c = ' ' := by
  rcases List.mem_append.mp hc with hc | hc
  · have hkind : ∀ c ∈ t.kind.toList, isBlank c = true → c = ' ' := by
      cases t <;> simp [kind] <;> decide
    exact hkind c hc hblank
  rcases List.mem_append.mp hc with hc | hc
  · cases h with
    | particle => exact eq_space_of_isPrintable (isPrintable_of_mem_quoted hc) hblank
    | reference _ hname =>
      rw [not_isBlank_of_isNameChar (isNameChar_of_mem hname hc)] at hblank
      cases hblank
    | choice => cases hc
    | sequence => cases hc
  · rcases mem_spaced hc with rfl | hc
    · rfl
    · rw [Bounds.not_isBlank_of_mem_suffix hc] at hblank
      cases hblank

def indentation (l : List Char) : Nat := (l.takeWhile (· == ' ')).length

theorem Legible.label_head {t : Tree} (h : t.Legible) :
    ∀ c ∈ t.label.head?, (c == ' ') = false := by
  cases h <;> simp [label, kind]

theorem Legible.takeWhile_line {t : Tree} (h : t.Legible) (level : Nat) :
    (line (level, t)).takeWhile (· == ' ') = List.replicate (2 * level) ' ' :=
  takeWhile_append_of_stop (fun c hc => by simp [List.eq_of_mem_replicate hc]) h.label_head

theorem Legible.indentation_line {t : Tree} (h : t.Legible) (level : Nat) :
    indentation (line (level, t)) = 2 * level := by
  rw [indentation, h.takeWhile_line, List.length_replicate]

theorem line_inj {t u : Tree} {l m : Nat} (ht : t.Legible) (hu : u.Legible)
    (h : line (l, t) = line (m, u)) : l = m ∧ t.label = u.label := by
  have hlevel := congrArg indentation h
  rw [ht.indentation_line, hu.indentation_line] at hlevel
  obtain rfl : l = m := by omega
  exact ⟨rfl, List.append_cancel_left h⟩

/-- Two characters tell the kinds apart. -/
theorem take_label (t : Tree) (h : t.isProper = true) :
    t.label.take 2 = t.kind.toList.take 2 := by
  cases t with
  | stray => cases h
  | _ => simp [label, kind]

/-- A name ends where its line or the first space behind it does. -/
theorem takeWhile_name_spaced {name : Name} (h : isIdentifier name = true) (b : Bounds) :
    (name ++ spaced b.suffix).takeWhile isNameChar = name := by
  refine takeWhile_append_of_stop (fun c hc => isNameChar_of_mem h hc) ?_
  cases b.suffix with
  | nil => simp [spaced]
  | cons d s =>
    rintro c ⟨⟩
    decide

/-- A label says what a node is, but for its children. -/
theorem Legible.bare_eq_of_label_eq {t u : Tree} (ht : t.Legible) (hu : u.Legible)
    (h : t.label = u.label) : t.bare = u.bare := by
  have hkind : t.kind.toList.take 2 = u.kind.toList.take 2 := by
    rw [← take_label t ht.isProper, ← take_label u hu.isProper, h]
  cases ht with
  | particle hb =>
    cases hu with
    | particle hb' =>
      obtain ⟨hc, hs⟩ := quoted_append_inj (List.append_cancel_left h)
      cases hc
      cases hb.suffix_inj hb' (spaced_inj hs)
      rfl
    | _ => simp [kind] at hkind
  | @reference name b hb hname =>
    cases hu with
    | @reference name' b' hb' hname' =>
      have hrest : name ++ spaced b.suffix = name' ++ spaced b'.suffix :=
        List.append_cancel_left h
      have hnames : name = name' := by
        rw [← takeWhile_name_spaced hname b, hrest, takeWhile_name_spaced hname']
      subst hnames
      cases hb.suffix_inj hb' (spaced_inj (List.append_cancel_left hrest))
      rfl
    | _ => simp [kind] at hkind
  | choice hb =>
    cases hu with
    | choice hb' =>
      cases hb.suffix_inj hb' (spaced_inj (List.append_cancel_left h))
      rfl
    | _ => simp [kind] at hkind
  | sequence hb =>
    cases hu with
    | sequence hb' =>
      cases hb.suffix_inj hb' (spaced_inj (List.append_cancel_left h))
      rfl
    | _ => simp [kind] at hkind

/-- The lines of a tree whose root is at the given level. -/
def nodeLines (level : Nat) (t : Tree) : List (List Char) := (t.preorder level).map line

theorem nodeLines_eq (level : Nat) (t : Tree) :
    t.nodeLines level = line (level, t) :: t.children.flatMap (nodeLines (level + 1)) := by
  rw [nodeLines, preorder_eq, List.map_cons, List.map_flatMap]
  rfl

/-- The lines begin with one that is indented less than the level asks for, if there are any. -/
def Outside (level : Nat) (ls : List (List Char)) : Prop :=
  ∀ l ∈ ls.head?, indentation l < 2 * level

/-- The lines of the tree tell it apart from every other tree, whatever stands behind them, as long
as that is no deeper than the tree. -/
def ReadBack (t : Tree) : Prop :=
  ∀ (level : Nat) (u : Tree) (r s : List (List Char)),
    t.Legible → u.Legible → Outside (level + 1) r → Outside (level + 1) s →
    t.nodeLines level ++ r = u.nodeLines level ++ s → t = u ∧ r = s

/-- Behind the lines of a tree there are those of the next one, or the lines end here. -/
theorem outside_flatMap {ts : List Tree} {level : Nat} {r : List (List Char)}
    (hts : ∀ t ∈ ts, t.Legible) (hr : Outside level r) :
    Outside (level + 1) (ts.flatMap (nodeLines level) ++ r) := by
  cases ts with
  | nil =>
    intro l hl
    have := hr l hl
    omega
  | cons t ts =>
    rw [List.flatMap_cons, nodeLines_eq]
    rintro l ⟨⟩
    rw [(hts t List.mem_cons_self).indentation_line]
    omega

/-- Trees at one level are told by their lines, if each of them is. -/
theorem flatMap_nodeLines_inj {ts us : List Tree} {level : Nat} {r s : List (List Char)}
    (hread : ∀ t ∈ ts, ReadBack t) (hts : ∀ t ∈ ts, t.Legible)
    (hus : ∀ u ∈ us, u.Legible) (hr : Outside level r) (hs : Outside level s)
    (h : ts.flatMap (nodeLines level) ++ r = us.flatMap (nodeLines level) ++ s) :
    ts = us ∧ r = s := by
  -- a line at this level is not outside
  have hend {t : Tree} {ts : List Tree} {r s : List (List Char)}
      (ht : t.Legible) (hr : Outside level r)
      (h : r = (t :: ts).flatMap (nodeLines level) ++ s) : False := by
    rw [List.flatMap_cons, nodeLines_eq] at h
    subst h
    have hlt := hr _ rfl
    rw [ht.indentation_line] at hlt
    exact Nat.lt_irrefl _ hlt
  induction ts generalizing us with
  | nil =>
    cases us with
    | nil => exact ⟨rfl, h⟩
    | cons u us => exact (hend (hus u List.mem_cons_self) hr h).elim
  | cons t ts ih =>
    obtain ⟨htread, hread⟩ := List.forall_mem_cons.mp hread
    obtain ⟨ht, hts⟩ := List.forall_mem_cons.mp hts
    cases us with
    | nil => exact (hend ht hs h.symm).elim
    | cons u us =>
      obtain ⟨hu, htl⟩ := List.forall_mem_cons.mp hus
      rw [List.flatMap_cons, List.flatMap_cons, List.append_assoc, List.append_assoc] at h
      obtain ⟨rfl, hrest⟩ := htread level u _ _ ht hu (outside_flatMap hts hr)
        (outside_flatMap htl hs) h
      obtain ⟨rfl, hrs⟩ := ih hread hts htl hrest
      exact ⟨rfl, hrs⟩

theorem readBack (t : Tree) : ReadBack t := by
  induction t using induct_children with
  | step t ih =>
    intro level u r s ht hu hr hs h
    rw [nodeLines_eq, nodeLines_eq level u, List.cons_append, List.cons_append,
      List.cons.injEq] at h
    obtain ⟨hline, hrest⟩ := h
    have hbare := ht.bare_eq_of_label_eq hu (line_inj ht hu hline).2
    obtain ⟨hchildren, hrs⟩ := flatMap_nodeLines_inj ih (fun _ => ht.of_mem_children)
      (fun _ => hu.of_mem_children) hr hs hrest
    exact ⟨eq_of_bare_eq hbare hchildren, hrs⟩

theorem alikeAll_iff {ts us : List Tree}
    (h : ∀ t ∈ ts, ∀ u ∈ us, t.alike u = true ↔ t = u) : alikeAll ts us = true ↔ ts = us := by
  induction ts generalizing us with
  | nil => cases us <;> simp [alikeAll]
  | cons t ts ih =>
    cases us with
    | nil => simp [alikeAll]
    | cons u us =>
      have htail : alikeAll ts us = true ↔ ts = us := ih fun v hv w hw =>
        h v (List.mem_cons_of_mem _ hv) w (List.mem_cons_of_mem _ hw)
      have hhead := h t List.mem_cons_self u List.mem_cons_self
      rw [alikeAll, Bool.and_eq_true, hhead, htail, List.cons.injEq]

/-- Without slots, trees are the same if they are alike. -/
theorem Legible.alike_iff {t u : Tree} (ht : t.Legible) (hu : u.Legible) :
    t.alike u = true ↔ t = u := by
  induction ht generalizing u with
  | particle => cases hu <;> simp [alike]
  | reference => cases hu <;> simp [alike]
  | choice _ _ ih =>
    cases hu with
    | choice _ hus => simp [alike, alikeAll_iff fun t ht u hu => ih t ht (hus u hu)]
    | _ => simp [alike]
  | sequence _ _ ih =>
    cases hu with
    | sequence _ hus => simp [alike, alikeAll_iff fun t ht u hu => ih t ht (hus u hu)]
    | _ => simp [alike]

theorem Legible.of_mem_preorder {t : Tree} (h : t.Legible) {level : Nat} :
    ∀ n ∈ t.preorder level, n.2.Legible := by
  induction t using induct_children generalizing level with
  | step t ih =>
    rw [preorder_eq]
    refine List.forall_mem_cons.mpr ⟨h, fun n hn => ?_⟩
    obtain ⟨u, hu, hn⟩ := List.mem_flatMap.mp hn
    exact ih u hu (h.of_mem_children hu) n hn

theorem Legible.not_mem_lineBreaks {t : Tree} (h : t.Legible) (level : Nat) :
    ∀ c ∈ line (level, t), c ∉ lineBreaks := by
  have hspace : ' ' ∉ lineBreaks := by decide
  intro c hc hbreak
  rcases List.mem_append.mp hc with hc | hc
  · exact hspace (List.eq_of_mem_replicate hc ▸ hbreak)
  · exact hspace (h.eq_space_of_mem_label hc (isBlank_of_mem_lineBreaks hbreak) ▸ hbreak)

theorem Legible.outline_inj {t u : Tree} (ht : t.Legible) (hu : u.Legible)
    (h : t.outline 0 = u.outline 0) : t = u := by
  have hnil : Outside 1 [] := by rintro l ⟨⟩
  have hlines : t.nodeLines 0 ++ [] = u.nodeLines 0 ++ [] := by
    rw [List.append_nil, List.append_nil, nodeLines, nodeLines, ← ht.outline_eq_map_line 0,
      ← hu.outline_eq_map_line 0]
    exact h
  exact (readBack t 0 u [] [] ht hu hnil hnil hlines).1

theorem Legible.lines_outline_inj {t u : Tree} (ht : t.Legible) (hu : u.Legible)
    (h : lines (t.outline 0) = lines (u.outline 0)) : t = u := by
  have hfeed {t : Tree} (ht : t.Legible) : ∀ l ∈ t.outline 0, '\n' ∉ l := by
    intro l hl hmem
    have hl : l ∈ (t.preorder 0).map line := ht.outline_eq_map_line 0 ▸ hl
    obtain ⟨n, hn, rfl⟩ := List.mem_map.mp hl
    exact (ht.of_mem_preorder n hn).not_mem_lineBreaks n.1 _ hmem (by decide)
  exact ht.outline_inj hu (lines_inj (hfeed ht) (hfeed hu) h)

end Tree

/-- The outline of a pattern is faithful. It has one line for every node of the tree, in the order
of the nodes, each indented by two spaces for every level and free of line breaks; and two patterns
have the same outline, and print the same text, exactly if their roots are equal. -/
theorem outlines_are_faithful {s s' : List Char} {p q : Pattern}
    (hp : Pattern.compile s = .ok p) (hq : Pattern.compile s' = .ok q) :
    (p.root.outline? 0 = some ((p.root.preorder 0).map Tree.line) ∧
      (∀ t, p.root.HasNode t ↔ ∃ level, (level, t) ∈ p.root.preorder 0) ∧
      ∀ n ∈ p.root.preorder 0, Tree.indentation (Tree.line n) = 2 * n.1 ∧
        ∀ c ∈ Tree.line n, c ∉ lineBreaks) ∧
    (p.root.outline? 0 = q.root.outline? 0 ↔ p.root.alike q.root = true) ∧
    (lines (p.root.outline 0) = lines (q.root.outline 0) ↔ p.root.alike q.root = true) := by
  have htp : p.root.Legible := (isPatternRoot_of_compile hp).legible
  have htq : q.root.Legible := (isPatternRoot_of_compile hq).legible
  have hsome {t : Tree} (ht : t.Legible) : t.outline? 0 = some (t.outline 0) :=
    if_pos ht.isProper
  refine ⟨⟨?_, fun t => Tree.hasNode_iff_mem_preorder, fun n hn => ?_⟩, ?_, ?_⟩
  · rw [hsome htp]
    exact congrArg some (htp.outline_eq_map_line 0)
  · have hn := htp.of_mem_preorder n hn
    exact ⟨hn.indentation_line n.1, hn.not_mem_lineBreaks n.1⟩
  · rw [hsome htp, hsome htq, Option.some_inj, htp.alike_iff htq]
    exact ⟨htp.outline_inj htq, congrArg (Tree.outline 0)⟩
  · rw [htp.alike_iff htq]
    exact ⟨htp.lines_outline_inj htq, congrArg fun t : Tree => lines (t.outline 0)⟩

/-- An apostrophe and a control character, and a question mark that belongs to a reference in one
pattern and to the group around it in the other. -/
theorem outlines_are_faithful_quotes :
    let s := ['\'', '[', '\x7f', '$', 'a', '?', ']']
    let s' := ['\'', '[', '\x7f', '$', 'a', ']', '?']
    let t : Tree := .sequence [.particle ['\''] .once,
      .choice [.particle ['\x7f'] .once, .reference ['a'] .optional none] .once] .once
    let u : Tree := .sequence [.particle ['\''] .once,
      .choice [.particle ['\x7f'] .once, .reference ['a'] .once none] .optional] .once
    Pattern.compile s = .ok ⟨s, t⟩ ∧ Pattern.compile s' = .ok ⟨s', u⟩ ∧
      t.outline? 0 = some (["SEQ", "  PARTICLE \"'\"", "  ALT", "    PARTICLE '\\x7f'",
        "    PRODUCTION a ?"].map String.toList) ∧
      t.outline? 0 ≠ u.outline? 0 ∧ lines (t.outline 0) ≠ lines (u.outline 0) := by
  intro s s' t u
  have hs : Pattern.compile s = .ok ⟨s, t⟩ := by cbv
  have hs' : Pattern.compile s' = .ok ⟨s', u⟩ := by cbv
  have hdiffer : t.alike u ≠ true := Bool.eq_false_iff.mp (by cbv)
  obtain ⟨⟨houtline, -⟩, hsame, hprinted⟩ := outlines_are_faithful hs hs'
  have hlines : (t.preorder 0).map Tree.line = ["SEQ", "  PARTICLE \"'\"", "  ALT",
      "    PARTICLE '\\x7f'", "    PRODUCTION a ?"].map String.toList := by cbv
  exact ⟨hs, hs', houtline.trans (congrArg some hlines), mt hsame.mp hdiffer,
    mt hprinted.mp hdiffer⟩

end Coinage
