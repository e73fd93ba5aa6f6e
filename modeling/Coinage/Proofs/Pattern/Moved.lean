import Coinage.Proofs.Pattern.Derivation

/-!
# Texts further behind

A text is read in the same way wherever it stands. With `k` more characters in front of it all
places are greater by `k`, and nodes in front of it stay in front of those that it stands for.
-/

namespace Coinage

open Grammar

/-- The reason to stop, with `k` more characters in front of its place. -/
def Stop.moved (k : Nat) : Stop → Stop
  | .flaw what pos => .flaw what (k + pos)
  | .digits count => .digits count

/-- The lexeme, with `k` more characters in front of its place. -/
def Lexeme.moved (k : Nat) : Lexeme → Lexeme
  | .opener kind pos => .opener kind (k + pos)
  | x => x

def Cursor.moved (k : Nat) (c : Cursor) : Cursor := ⟨k + c.pos, c.rest⟩

@[simp] theorem Cursor.rest_moved (k : Nat) (c : Cursor) : (c.moved k).rest = c.rest := rfl

@[simp] theorem Cursor.endPos_moved (k : Nat) (c : Cursor) :
    (c.moved k).endPos = k + c.endPos :=
  Nat.add_assoc _ _ _

variable {α β : Type} {k : Nat}

namespace Scan

/-- The second reading does `k` characters further behind what the first one does. -/
def Moves (k : Nat) (s s' : Scan α) : Prop := ∀ c, s' (c.moved k) =
  match s c with
  | .ok a d => .ok a (d.moved k)
  | .error e d => .error (e.moved k) (d.moved k)

theorem Moves.pure (a : α) : Moves k (pure a) (pure a) := fun _ => rfl

theorem Moves.throw (e : Stop) : Moves k (throw e : Scan α) (throw (e.moved k)) := fun _ => rfl

theorem Moves.bind {s s' : Scan α} {f f' : α → Scan β} (hs : Moves k s s')
    (hf : ∀ a, Moves k (f a) (f' a)) : Moves k (s >>= f) (s' >>= f') := by
  intro c
  simp only [Bind.bind, EStateM.bind, hs c]
  cases s c with
  | ok a d => exact hf a d
  | error e d => rfl

@[simp] theorem moved_skip (n : Nat) (c : Cursor) : (c.moved k).skip n = (c.skip n).moved k := by
  simp [Cursor.moved, Cursor.skip, Nat.add_assoc]

theorem moves_integer : Moves k integer integer := by
  intro c
  simp only [integer, Cursor.rest_moved, moved_skip]
  split
  · rfl
  · split <;> rfl

theorem moves_identifier : Moves k identifier identifier := by
  intro c
  simp only [identifier, Cursor.rest_moved, moved_skip]
  split
  · rfl
  · split <;> rfl

theorem moves_expect (x : Char) : Moves k (expect x) (expect x) := by
  rintro ⟨pos, rest⟩
  cases rest with
  | nil => rfl
  | cons y r =>
    simp only [expect, Cursor.next, Cursor.moved]
    split <;> rfl

theorem moves_braced (opened : Nat) : Moves k (braced opened) (braced (k + opened)) := by
  refine moves_integer.bind fun lo => (moves_expect _).bind fun _ =>
    moves_integer.bind fun hi => (moves_expect _).bind fun _ => ?_
  split
  · exact (Moves.throw _).bind fun _ => .pure _
  · exact (Moves.pure _).bind fun _ => .pure _

theorem moves_bounds : Moves k bounds bounds := by
  rintro ⟨pos, rest⟩
  simp only [bounds, Cursor.rest_moved]
  split
  · rw [moved_skip]
  · rw [moved_skip]
    exact moves_braced pos _
  · rfl

theorem Moves.stops {s s' : Scan α} {c : Cursor} {e : Stop} (h : Moves k s s') (hs : Stops s c e) :
    Stops s' (c.moved k) (e.moved k) := by
  obtain ⟨d, hs⟩ := hs
  refine ⟨d.moved k, ?_⟩
  rw [h, hs]

end Scan

namespace Cursor

variable {c c' d : Cursor} {x : Lexeme}

/-- The second cursor stands in front of the text of the first one, at most a gap away, and the text
is `k` characters further behind. -/
def Ahead (k : Nat) (c d : Cursor) : Prop :=
  ∃ w, Gap w ∧ d.rest = w ++ c.rest ∧ d.pos + w.length = k + c.pos

theorem ahead_moved (k : Nat) (c : Cursor) : Ahead k c (c.moved k) := ⟨[], gap_nil, rfl, rfl⟩

theorem Ahead.endPos_eq (h : Ahead k c d) : d.endPos = k + c.endPos := by
  obtain ⟨w, -, hr, hp⟩ := h
  simp only [endPos, hr, List.length_append]
  omega

/-- The gap in front of a lexeme may be longer. -/
theorem Ahead.gap {v s : List Char} (h : Ahead k c d) (hv : Gap v) (hs : c.rest = v ++ s) :
    ∃ w, Gap w ∧ d.rest = w ++ s ∧ d.pos + w.length = k + (c.pos + v.length) := by
  obtain ⟨w, hw, hr, hp⟩ := h
  refine ⟨w ++ v, hw.append hv, by rw [hr, hs, List.append_assoc], ?_⟩
  rw [List.length_append]
  omega

theorem Front.moved (hd : Ahead k c d) (h : c.Front x c') :
    Front d (x.moved k) (c'.moved k) := by
  cases h with
  | literal hw hs =>
    obtain ⟨w, hw, hs, hp⟩ := hd.gap hw hs
    have h := Front.literal hw hs
    rwa [hp, Nat.add_assoc] at h
  | opener hw hs =>
    obtain ⟨w, hw, hs, hp⟩ := hd.gap hw hs
    have h := Front.opener hw hs
    rwa [hp, Nat.add_assoc] at h
  | reference hw hs hn hb he =>
    obtain ⟨w, hw, hs, -⟩ := hd.gap hw hs
    exact .reference hw hs hn hb (by rw [endPos_moved, he, hd.endPos_eq])
  | plain hw hs hx hb he =>
    obtain ⟨w, hw, hs, -⟩ := hd.gap hw hs
    exact .plain hw hs hx hb (by rw [endPos_moved, he, hd.endPos_eq])

theorem Halt.moved {xs : List Lexeme} {e : Stop} (hd : Ahead k c d) (h : c.Halt xs e) :
    Halt d (xs.map (.moved k)) (e.moved k) := by
  cases h with
  | escape hw hs =>
    obtain ⟨w, hw, hs, -⟩ := hd.gap hw hs
    rw [Stop.moved, ← hd.endPos_eq]
    exact .escape hw hs
  | name hw hs hn =>
    obtain ⟨w, hw, hs, hp⟩ := hd.gap hw hs
    refine .name hw hs ?_
    rw [hp, Nat.add_assoc]
    exact Scan.moves_identifier.stops hn
  | reference hw hs hn hb =>
    obtain ⟨w, hw, hs, hp⟩ := hd.gap hw hs
    refine .reference hw hs hn ?_
    rw [hp, Nat.add_assoc k, Nat.add_assoc k]
    exact Scan.moves_bounds.stops hb
  | plain hw hs hx hb =>
    obtain ⟨w, hw, hs, hp⟩ := hd.gap hw hs
    refine .plain hw hs hx ?_
    rw [hp, Nat.add_assoc]
    exact Scan.moves_bounds.stops hb

end Cursor

/-- Both succeed, with results that are related, or both stop, the second one `k` characters further
behind. -/
inductive Alongside (k : Nat) (R : α → β → Prop) : Except Stop α → Except Stop β → Prop
  | ok {a : α} {b : β} : R a b → Alongside k R (.ok a) (.ok b)
  | error (e : Stop) : Alongside k R (.error e) (.error (e.moved k))

theorem Alongside.bind {γ δ : Type} {R : α → β → Prop} {S : γ → δ → Prop} {x : Except Stop α}
    {y : Except Stop β} {f : α → Except Stop γ} {g : β → Except Stop δ} (h : Alongside k R x y)
    (hf : ∀ a b, R a b → Alongside k S (f a) (g b)) : Alongside k S (x >>= f) (y >>= g) := by
  cases h with
  | ok hab => exact hf _ _ hab
  | error e => exact .error e

theorem Alongside.of_ok {R : α → β → Prop} {a : α} {y : Except Stop β}
    (h : Alongside k R (.ok a) y) : ∃ b, y = .ok b ∧ R a b := by
  cases h with
  | ok hab => exact ⟨_, rfl, hab⟩

theorem Alongside.of_error {R : α → β → Prop} {e : Stop} {y : Except Stop β}
    (h : Alongside k R (.error e) y) : y = .error (e.moved k) := by
  cases h with
  | error => rfl

namespace Nesting

variable {before : List Tree} {n n' : Nesting}

/-- The second nesting is the first one `k` characters further behind, with nodes in front of all
that has been read. -/
inductive Behind (k : Nat) (before : List Tree) : Nesting → Nesting → Prop
  | outside {nodes : List Tree} : Behind k before ⟨nodes, []⟩ ⟨nodes ++ before, []⟩
  | inside {nodes outer outer' : List Tree} {gs gs' : List OpenGroup} {kind : GroupKind}
      {pos : Nat} : Behind k before ⟨outer, gs⟩ ⟨outer', gs'⟩ →
      Behind k before ⟨nodes, ⟨kind, pos, outer⟩ :: gs⟩ ⟨nodes, ⟨kind, k + pos, outer'⟩ :: gs'⟩

theorem Behind.push (h : Behind k before n n') (t : Tree) :
    Behind k before (n.push t) (n'.push t) := by
  cases h with
  | @outside nodes => exact @Behind.outside k before (t :: nodes)
  | inside h => exact .inside h

theorem Behind.closers_eq (h : Behind k before n n') : closers n'.groups = closers n.groups := by
  induction h with
  | outside => rfl
  | inside _ ih => exact congrArg (_ :: ·) ih

/-- Closing a group needs its own nodes only. -/
theorem node_moved (kind : GroupKind) (pos : Nat) (outer outer' nodes : List Tree) (b : Bounds) :
    Alongside k (· = ·) (OpenGroup.node ⟨kind, pos, outer⟩ nodes b)
      (OpenGroup.node ⟨kind, k + pos, outer'⟩ nodes b) := by
  cases kind with
  | choice =>
    cases nodes with
    | nil => exact .error _
    | cons t ts => exact .ok rfl
  | sequence => exact .ok rfl

theorem Behind.read_plain (h : Behind k before n n') (y : Char) (b : Bounds) :
    Alongside k (Behind k before) (n.read (.plain y b)) (n'.read (.plain y b)) := by
  cases h with
  | outside => exact .ok (Behind.outside.push _)
  | @inside nodes outer outer' gs gs' kind pos h =>
    by_cases hy : y = kind.closer
    · simp only [Nesting.read, closedBy?, if_pos hy]
      refine (node_moved kind pos outer outer' nodes.reverse b).bind ?_
      rintro t _ rfl
      exact .ok (h.push t)
    · simp only [Nesting.read, closedBy?, if_neg hy]
      exact .ok (h.inside.push _)

/-- One lexeme. -/
theorem Behind.read (h : Behind k before n n') (x : Lexeme) :
    Alongside k (Behind k before) (n.read x) (n'.read (x.moved k)) := by
  cases x with
  | opener kind pos =>
    have hlen : n'.groups.length = n.groups.length := by
      simpa [closers] using congrArg List.length h.closers_eq
    simp only [Nesting.read, Lexeme.moved, hlen]
    split
    · exact .ok (.inside h)
    · exact .error (.flaw .tooDeep pos)
  | literal y => exact .ok (h.push _)
  | reference name b => exact .ok (h.push _)
  | plain y b => exact h.read_plain y b
  | unfinished y =>
    change Alongside k _ (n.read (.unfinished y)) (n'.read (.unfinished y))
    rw [read_unfinished, read_unfinished]
    exact (h.read_plain y .once).bind fun _ _ _ => .ok h

theorem Behind.readAll (h : Behind k before n n') (xs : List Lexeme) :
    Alongside k (Behind k before) (xs.foldlM Nesting.read n)
      ((xs.map (.moved k)).foldlM Nesting.read n') := by
  induction xs generalizing n n' with
  | nil => exact .ok h
  | cons x xs ih =>
    rw [List.map_cons, List.foldlM_cons, List.foldlM_cons]
    exact (h.read x).bind fun m m' hm => ih hm

/-- The second tree is a sequence like the first one, with nodes in front. -/
def Prefixed (before : List Tree) (t t' : Tree) : Prop :=
  ∃ ts, t = .sequence ts .once ∧ t' = .sequence (before.reverse ++ ts) .once

theorem Behind.root (h : Behind k before n n') (pos : Nat) :
    Alongside k (Prefixed before) (n.root pos) (n'.root (k + pos)) := by
  cases h with
  | @outside nodes => exact .ok ⟨nodes.reverse, rfl, by rw [List.reverse_append]⟩
  | inside => exact .error (.flaw .unexpectedEnd pos)

/-- Reading comes to the same further behind. -/
theorem Behind.finish {c d : Cursor} (h : Behind k before n n') (hd : Cursor.Ahead k c d) :
    Alongside k (Prefixed before) (n.finish c) (n'.finish d) := by
  -- on the text that is left, which every lexeme makes shorter
  induction hl : c.rest.length using Nat.strongRecOn generalizing n n' c d with
  | ind l ih =>
    rcases c.front_cases with hw | ⟨x, c', hx⟩ | ⟨xs, e, hh⟩
    · have hw' : Gap d.rest := by
        obtain ⟨v, hv, hr, -⟩ := hd
        rw [hr]
        exact hv.append hw
      rw [finish_of_gap hw, finish_of_gap hw', hd.endPos_eq]
      exact h.root _
    · rw [finish_of_front hx, finish_of_front (hx.moved hd)]
      refine (h.read x).bind fun m m' hm => ?_
      exact ih _ (hl ▸ hx.length_lt) hm (c'.ahead_moved k) rfl
    · rw [finish_of_halt hh, finish_of_halt (hh.moved hd)]
      exact (h.readAll xs).bind fun _ _ _ => .error e

end Nesting

end Coinage
