import Coinage.Pattern.Compile
import Coinage.Proofs.Pattern.Lexemes

/-!
# Compiling and the grammar

Compiling accepts exactly the patterns, with the trees they stand for. Reading is followed from any
point on: what is open there and the text that is left must together derive the tree.
-/

namespace Coinage

open Grammar

def GroupKind.node : GroupKind → List Tree → Bounds → Tree
  | .choice => .choice
  | .sequence => .sequence

/-- Both rules for groups in one. -/
theorem Grammar.Tokens.group {closers w s s₁ s₂ r : List Char} {us ts : List Tree} {b : Bounds}
    {kind : GroupKind} (hw : Gap w) (hd : closers.length < 100)
    (hus : Tokens (kind.closer :: closers) s us (kind.closer :: s₁))
    (hne : kind = .choice → us ≠ []) (hb : Suffix s₁ b s₂) (hts : Tokens closers s₂ ts r) :
    Tokens closers (w ++ kind.opener :: s) (kind.node us b :: ts) r := by
  cases kind with
  | choice =>
    obtain ⟨u, us, rfl⟩ := List.exists_cons_of_ne_nil (hne rfl)
    exact .choice hw hd hus hb hts
  | sequence => exact .sequence hw hd hus hb hts

namespace Nesting

/-- What the reading of a text comes to, from what has been read and a cursor on. -/
def finish (n : Nesting) (c : Cursor) : Except Stop Tree := do
  let n ← c.lexemes.lexemes.foldlM Nesting.read n
  let pos ← c.lexemes.ending
  n.root pos

theorem finish_of_front {c c' : Cursor} {x : Lexeme} (h : c.Front x c') (n : Nesting) :
    n.finish c = n.read x >>= fun n' => n'.finish c' := by
  simp only [finish, Cursor.lexemes_of_front h, Reading.cons, List.foldlM_cons, bind_assoc]

theorem finish_of_gap {c : Cursor} (h : Gap c.rest) (n : Nesting) :
    n.finish c = n.root c.endPos := by
  simp only [finish, Cursor.lexemes_of_gap h, List.foldlM_nil]
  rfl

theorem finish_of_halt {c : Cursor} {xs : List Lexeme} {e : Stop} (h : c.Halt xs e)
    (n : Nesting) : n.finish c = xs.foldlM Nesting.read n >>= fun _ => .error e := by
  simp only [finish, Cursor.lexemes_of_halt h]
  rfl

def closers (gs : List OpenGroup) : List Char := gs.map fun g => g.kind.closer

@[simp] theorem closedBy?_eq_none {c : Char} {gs : List OpenGroup} :
    closedBy? c gs = none ↔ (closers gs).head? ≠ some c := by
  cases gs with
  | nil => simp [closedBy?, closers]
  | cons g gs => simp [closedBy?, closers, eq_comm]

@[simp] theorem closedBy?_eq_some {c : Char} {gs gs' : List OpenGroup} {g : OpenGroup} :
    closedBy? c gs = some (g, gs') ↔ gs = g :: gs' ∧ c = g.kind.closer := by
  cases gs with
  | nil => simp [closedBy?]
  | cons h gs =>
    simp only [closedBy?, Option.ite_none_right_eq_some, Option.some.injEq, Prod.mk.injEq,
      List.cons.injEq]
    constructor
    · rintro ⟨hc, rfl, rfl⟩
      exact ⟨⟨rfl, rfl⟩, hc⟩
    · rintro ⟨⟨rfl, rfl⟩, hc⟩
      exact ⟨hc, rfl, rfl⟩

@[simp] theorem node_eq_ok {g : OpenGroup} {ts : List Tree} {b : Bounds} {u : Tree} :
    OpenGroup.node g ts b = .ok u ↔ (g.kind = .choice → ts ≠ []) ∧ u = g.kind.node ts b := by
  obtain ⟨kind, pos, before⟩ := g
  cases kind <;> cases ts <;> simp [OpenGroup.node, GroupKind.node, eq_comm]

/-- The text that is left, behind open groups and the nodes of the innermost one, last node first,
comes to the tree: it holds the remaining tokens of every open group and its closer. -/
def Completes : List OpenGroup → List Tree → List Char → Tree → Prop
  | [], nodes, s, t => ∃ ts, Tokens [] s ts [] ∧ t = .sequence (nodes.reverse ++ ts) ⟨1, 1⟩
  | g :: gs, nodes, s, t => ∃ ts s₁ b s₂, Tokens (closers (g :: gs)) s ts (g.kind.closer :: s₁) ∧
      (g.kind = .choice → nodes.reverse ++ ts ≠ []) ∧ Suffix s₁ b s₂ ∧
      Completes gs (g.kind.node (nodes.reverse ++ ts) b :: g.before) s₂ t

/-- A node for which there are tokens at the front has been read before the rest. -/
theorem Completes.cons {gs : List OpenGroup} {nodes : List Tree} {s s' : List Char} {u t : Tree}
    (hu : ∀ ts r, Tokens (closers gs) s' ts r → Tokens (closers gs) s (u :: ts) r)
    (h : Completes gs (u :: nodes) s' t) : Completes gs nodes s t := by
  cases gs with
  | nil =>
    obtain ⟨ts, hts, rfl⟩ := h
    exact ⟨u :: ts, hu _ _ hts, by simp⟩
  | cons g gs =>
    obtain ⟨ts, s₁, b, s₂, hts, hne, hb, h⟩ := h
    refine ⟨u :: ts, s₁, b, s₂, hu _ _ hts, by simp, hb, ?_⟩
    simpa using h

theorem Completes.opener {gs : List OpenGroup} {nodes : List Tree} {w s : List Char} {t : Tree}
    {kind : GroupKind} {pos : Nat} (hw : Gap w) (hd : gs.length < 100)
    (h : Completes (⟨kind, pos, nodes⟩ :: gs) [] s t) :
    Completes gs nodes (w ++ kind.opener :: s) t := by
  obtain ⟨ts, s₁, b, s₂, hts, hne, hb, h⟩ := h
  refine Completes.cons (fun us r hus => ?_) h
  exact .group hw (by simpa [closers] using hd) hts hne hb hus

theorem Completes.closer {g : OpenGroup} {gs : List OpenGroup} {nodes : List Tree}
    {w s₁ s₂ : List Char} {b : Bounds} {t : Tree} (hw : Gap w)
    (hne : g.kind = .choice → nodes.reverse ≠ []) (hb : Suffix s₁ b s₂)
    (h : Completes gs (g.kind.node nodes.reverse b :: g.before) s₂ t) :
    Completes (g :: gs) nodes (w ++ g.kind.closer :: s₁) t :=
  ⟨[], s₁, b, s₂, .nothing hw rfl, by simpa using hne, hb, by simpa using h⟩

theorem Completes.root {n : Nesting} {pos : Nat} {w : List Char} {t : Tree} (hw : Gap w)
    (h : n.root pos = .ok t) : Completes n.groups n.nodes w t := by
  obtain ⟨nodes, groups⟩ := n
  cases groups with
  | nil =>
    cases h
    have hts : Tokens [] (w ++ []) [] [] := .nothing hw rfl
    exact ⟨[], by simpa using hts, by simp [Bounds.once]⟩
  | cons g gs => cases h

/-- One lexeme: what completes the text behind it completes the text with it. -/
theorem Completes.of_read {n n' : Nesting} {c c' : Cursor} {x : Lexeme} {t : Tree}
    (hx : c.Front x c') (hr : n.read x = .ok n') (h : Completes n'.groups n'.nodes c'.rest t) :
    Completes n.groups n.nodes c.rest t := by
  cases hx with
  | literal hw hs =>
    cases hr
    rw [hs]
    exact h.cons fun _ _ hts => .escaped hw hts
  | opener hw hs =>
    simp only [read] at hr
    split at hr
    · cases hr
      rw [hs]
      exact h.opener hw ‹_›
    · cases hr
  | reference hw hs hn hb he =>
    cases hr
    rw [hs]
    exact h.cons fun _ _ hts => .reference hw hn hb hts
  | plain hw hs hx hb he =>
    rw [hs]
    simp only [read] at hr
    split at hr
    · rename_i hc
      cases hr
      exact h.cons fun _ _ hts => .plain hw ⟨hx, closedBy?_eq_none.mp hc⟩ hb hts
    · rename_i g gs hc
      obtain ⟨hg, rfl⟩ := closedBy?_eq_some.mp hc
      obtain ⟨u, hu, hr⟩ := except_bind_eq_ok.mp hr
      cases hr
      obtain ⟨hne, rfl⟩ := node_eq_ok.mp hu
      rw [hg]
      exact h.closer hw hne hb

/-- What reading comes to is derived by the grammar. -/
theorem completes_of_finish {n : Nesting} {c : Cursor} {t : Tree} (h : n.finish c = .ok t) :
    Completes n.groups n.nodes c.rest t := by
  induction hl : c.rest.length using Nat.strongRecOn generalizing n c with
  | ind l ih =>
    rcases c.front_cases with hw | ⟨x, c', hx⟩ | ⟨xs, e, he⟩
    · rw [finish_of_gap hw] at h
      exact .root hw h
    · rw [finish_of_front hx] at h
      obtain ⟨n', hr, h⟩ := except_bind_eq_ok.mp h
      exact .of_read hx hr (ih _ (hl ▸ hx.length_lt) h rfl)
    · rw [finish_of_halt he] at h
      obtain ⟨n', -, h⟩ := except_bind_eq_ok.mp h
      cases h

/-- A token of one lexeme is read and becomes a node. -/
theorem finish_of_push {n : Nesting} {c c' : Cursor} {x : Lexeme} {u : Tree} (hx : c.Front x c')
    (hr : n.read x = .ok (n.push u)) : n.finish c = (n.push u).finish c' := by
  rw [finish_of_front hx, hr]
  rfl

@[simp]
theorem read_opener {n : Nesting} (kind : GroupKind) (pos : Nat) (h : n.groups.length < 100) :
    n.read (.opener kind pos) = .ok ⟨[], ⟨kind, pos, n.nodes⟩ :: n.groups⟩ :=
  if_pos h

@[simp]
theorem read_plain {n : Nesting} {x : Char} (b : Bounds) (h : (closers n.groups).head? ≠ some x) :
    n.read (.plain x b) = .ok (n.push (.particle [x] b)) := by
  simp only [read, closedBy?_eq_none.mpr h]

theorem read_closer {kind : GroupKind} {pos : Nat} {before us : List Tree} {gs : List OpenGroup}
    (b : Bounds) (h : kind = .choice → us ≠ []) :
    read ⟨us.reverse, ⟨kind, pos, before⟩ :: gs⟩ (.plain kind.closer b) =
      .ok ⟨kind.node us b :: before, gs⟩ := by
  have hc : closedBy? kind.closer (⟨kind, pos, before⟩ :: gs) = some (⟨kind, pos, before⟩, gs) :=
    closedBy?_eq_some.mpr ⟨rfl, rfl⟩
  have hu : OpenGroup.node ⟨kind, pos, before⟩ us b = .ok (kind.node us b) :=
    node_eq_ok.mpr ⟨h, rfl⟩
  simp only [read, hc, List.reverse_reverse, hu]
  rfl

/-- A character behind which reading stops is read as if it stood alone, and left out. -/
theorem read_unfinished (n : Nesting) (y : Char) :
    n.read (.unfinished y) = n.read (.plain y .once) >>= fun _ => .ok n := by
  simp only [read]
  split
  · rfl
  · simp only [bind_assoc]
    rfl

/-- Reading goes on in front of the rest, after a gap, with the nodes added to the innermost
group. -/
def ReadsOn (n : Nesting) (c : Cursor) (ts : List Tree) (r : List Char) : Prop :=
  ∃ c' w, Gap w ∧ c'.rest = w ++ r ∧ c'.endPos = c.endPos ∧
    n.finish c = finish ⟨ts.reverse ++ n.nodes, n.groups⟩ c'

theorem ReadsOn.cons {n : Nesting} {c c₁ : Cursor} {u : Tree} {ts : List Tree} {r : List Char}
    (hf : n.finish c = (n.push u).finish c₁) (he : c₁.endPos = c.endPos)
    (h : (n.push u).ReadsOn c₁ ts r) : n.ReadsOn c (u :: ts) r := by
  obtain ⟨c', w, hw, hr, he', hf'⟩ := h
  refine ⟨c', w, hw, hr, he'.trans he, ?_⟩
  rw [hf, hf']
  simp [push]

/-- A group becomes one node when its content is read up to its closer. -/
theorem ReadsOn.group {n : Nesting} {c : Cursor} {w s s₁ s₂ r : List Char} {us ts : List Tree}
    {b : Bounds} (kind : GroupKind) (hw : Gap w) (hs : c.rest = w ++ kind.opener :: s)
    (hd : (closers n.groups).length < 100) (hne : kind = .choice → us ≠ []) (hb : Suffix s₁ b s₂)
    (hus : ∀ m d, closers m.groups = kind.closer :: closers n.groups → Cursor.rest d = s →
      ReadsOn m d us (kind.closer :: s₁))
    (hts : ∀ d, Cursor.rest d = s₂ → (n.push (kind.node us b)).ReadsOn d ts r) :
    n.ReadsOn c (kind.node us b :: ts) r := by
  have hd' : n.groups.length < 100 := by simpa [closers] using hd
  obtain ⟨c₁, v, hv, hr, he, hf⟩ := hus ⟨[], ⟨kind, c.pos + w.length, n.nodes⟩ :: n.groups⟩
    ⟨c.pos + w.length + 1, s⟩ rfl rfl
  have ho : c.Front (.opener kind (c.pos + w.length)) ⟨c.pos + w.length + 1, s⟩ := .opener hw hs
  have he₁ : c₁.endPos = c.endPos := he.trans ho.endPos_eq
  have hcloser : kind.closer ∉ ['\\', '[', '(', '$', ' ', '\t'] := by
    cases kind <;> simp [GroupKind.closer]
  obtain ⟨c₂, hx, hr₂⟩ := Cursor.exists_front_plain hv hr hcloser hb
  refine .cons ?_ (hx.endPos_eq.trans he₁) (hts c₂ hr₂)
  rw [finish_of_front ho, read_opener kind _ hd']
  change finish _ _ = _
  rw [hf, finish_of_front hx, List.append_nil, read_closer b hne]
  rfl

/-- The tokens at a cursor are read and become nodes of the innermost group. -/
theorem readsOn_of_tokens {cs s r : List Char} {ts : List Tree} (h : Tokens cs s ts r) (n : Nesting)
    (c : Cursor) (hcs : closers n.groups = cs) (hs : c.rest = s) : n.ReadsOn c ts r := by
  induction h generalizing n c with
  | nothing hw hr => exact ⟨c, _, hw, hs, rfl, rfl⟩
  | escaped hw hts ih =>
    have hx : c.Front (.literal _) _ := .literal hw hs
    exact .cons (finish_of_push hx rfl) hx.endPos_eq (ih _ _ hcs rfl)
  | choice hw hd hus hb hts ihu ih =>
    subst hcs
    exact .group .choice hw hs hd (by simp) hb ihu fun d => ih _ d rfl
  | sequence hw hd hus hb hts ihu ih =>
    subst hcs
    exact .group .sequence hw hs hd (by simp) hb ihu fun d => ih _ d rfl
  | @reference _ w name s s₁ _ _ b hw hn hb hts ih =>
    obtain ⟨c₁, hx, hr⟩ := Cursor.exists_front_reference hw hs hn hb
    exact .cons (finish_of_push hx rfl) hx.endPos_eq (ih _ _ hcs hr)
  | @plain _ w s s₁ _ x _ b hw hx hb hts ih =>
    obtain ⟨c₁, hf, hr⟩ := Cursor.exists_front_plain hw hs hx.not_special hb
    refine .cons (finish_of_push hf (read_plain b ?_)) hf.endPos_eq (ih _ _ hcs hr)
    rw [hcs]
    exact hx.not_closer

end Nesting

theorem compile_eq_ok {s : List Char} {p : Pattern} : Pattern.compile s = .ok p ↔
    ∃ t, Nesting.start.finish (.start s) = .ok t ∧ p = ⟨s, t⟩ := by
  have htree : (Cursor.start s).lexemes.tree = Nesting.start.finish (.start s) := rfl
  rw [Pattern.compile, htree]
  cases Nesting.start.finish (.start s) with
  | ok t => simp [eq_comm]
  | error stop => simp

theorem compile_eq_error {s : List Char} {e : Refusal} : Pattern.compile s = .error e ↔
    ∃ stop, Nesting.start.finish (.start s) = .error stop ∧ e = stop.refusal s := by
  have htree : (Cursor.start s).lexemes.tree = Nesting.start.finish (.start s) := rfl
  rw [Pattern.compile, htree]
  cases Nesting.start.finish (.start s) with
  | ok t => simp
  | error stop => simp [eq_comm]

/-- What compiles is a pattern, and the root is the tree it stands for. -/
theorem derives_of_compile {s : List Char} {p : Pattern} (h : Pattern.compile s = .ok p) :
    p.source = s ∧ Derives s p.root := by
  obtain ⟨t, ht, rfl⟩ := compile_eq_ok.mp h
  obtain ⟨ts, hts, rfl⟩ := Nesting.completes_of_finish ht
  exact ⟨rfl, ts, hts, rfl⟩

/-- A pattern compiles to the tree it stands for. -/
theorem compile_of_derives {s : List Char} {t : Tree} (h : Derives s t) :
    Pattern.compile s = .ok ⟨s, t⟩ := by
  obtain ⟨ts, hts, rfl⟩ := h
  obtain ⟨c, w, hw, hr, -, hf⟩ := Nesting.readsOn_of_tokens hts .start (.start s) rfl rfl
  refine compile_eq_ok.mpr ⟨_, ?_, rfl⟩
  rw [hf, Nesting.finish_of_gap (by simpa [hr] using hw)]
  simp [Nesting.root, Nesting.start, Bounds.once]

/-- The compiler accepts exactly the patterns of the grammar: it succeeds with a root if and only if
the text stands for that tree. -/
theorem compile_root_iff_derives (s : List Char) (t : Tree) :
    (∃ p, Pattern.compile s = .ok p ∧ p.root = t) ↔ Derives s t := by
  constructor
  · rintro ⟨p, hp, rfl⟩
    exact (derives_of_compile hp).2
  · intro h
    exact ⟨⟨s, t⟩, compile_of_derives h, rfl⟩

/-- A name behind a dollar sign is a pattern, a sequence of one reference. -/
theorem compile_reference {name : Name} (h : isIdentifier name = true) :
    Pattern.compile ('$' :: name) =
      .ok ⟨'$' :: name, .sequence [.reference name .once none] .once⟩ := by
  have hname : Identifier name [] := ⟨h, by simp⟩
  have htokens : Tokens [] ([] ++ '$' :: (name ++ [])) [.reference name ⟨1, 1⟩ none] [] :=
    .reference gap_nil hname (.none (by simp) (by simp)) (.nothing gap_nil rfl)
  rw [List.nil_append, List.append_nil] at htokens
  exact compile_of_derives ⟨_, htokens, rfl⟩

end Coinage
