import Coinage.Generation
import Coinage.Proofs.Chance.Count
import Coinage.Proofs.Pattern.Shape
import Coinage.Proofs.Rulebook.Resolution

/-!
# The steps of making words

One equation for every step of an expansion: what a kind of node does, what a draw gives, what a
reference resolves to. An induction on expansions puts them together.
-/

namespace Coinage

variable {ρ : Type}

/-- Doing one thing several times is doing it for every element of a list. -/
theorem times_eq_inOrder {ε σ : Type} (act : EStateM ε σ Int) (n : Nat) (total : Int) :
    times act n total = inOrder (fun _ => act) (List.replicate n ()) total := by
  induction n generalizing total with
  | zero => rfl
  | succ n ih =>
    funext s
    simp only [times, List.replicate_succ, inOrder, ih]

/-- The first thing, and then the others. -/
@[simp]
theorem inOrder_cons {ε σ α : Type} (f : α → EStateM ε σ Int) (a : α) (as : List α) (total : Int) :
    inOrder f (a :: as) total = f a >>= fun k => inOrder f as (total + k) := by
  funext s
  simp only [inOrder, Bind.bind, EStateM.bind]
  cases f a s <;> rfl

@[simp]
theorem inOrder_append {ε σ α : Type} (f : α → EStateM ε σ Int) (as bs : List α) (total : Int) :
    inOrder f (as ++ bs) total = inOrder f as total >>= fun k => inOrder f bs k := by
  induction as generalizing total with
  | nil => rfl
  | cons a as ih =>
    rw [List.cons_append, inOrder_cons, inOrder_cons, bind_assoc]
    exact bind_congr fun k => ih (total + k)

/-- The results are added up onto the first total. -/
theorem inOrder_total {ε σ α : Type} (f : α → EStateM ε σ Int) (as : List α) (total : Int) :
    inOrder f as total = inOrder f as 0 >>= fun k => pure (total + k) := by
  induction as generalizing total with
  | nil =>
    change (pure total : EStateM ε σ Int) = pure 0 >>= fun k => pure (total + k)
    rw [pure_bind, Int.add_zero]
  | cons a as ih =>
    rw [inOrder_cons, inOrder_cons, bind_assoc]
    refine bind_congr fun k => ?_
    rw [ih (total + k), ih (0 + k), bind_assoc]
    refine bind_congr fun m => ?_
    rw [pure_bind, Int.zero_add, Int.add_assoc]

@[simp] theorem inOrder_map {ε σ α β : Type} (f : β → EStateM ε σ Int) (h : α → β) (as : List α)
    (total : Int) : inOrder f (as.map h) total = inOrder (fun a => f (h a)) as total := by
  induction as generalizing total with
  | nil => rfl
  | cons a as ih =>
    funext s
    simp only [List.map_cons, inOrder, ih]

@[simp] theorem inOrder_singleton {ε σ α : Type} (f : α → EStateM ε σ Int) (a : α) :
    inOrder f [a] 0 = f a := by
  rw [inOrder_cons]
  have htail (k : Int) : inOrder f [] (0 + k) = (pure k : EStateM ε σ Int) := by
    rw [Int.zero_add]
    rfl
  rw [funext htail, bind_pure]

@[simp] theorem inOrder_replicate {ε σ α : Type} (f : α → EStateM ε σ Int) (a : α) (n : Nat)
    (total : Int) : inOrder f (List.replicate n a) total = times (f a) n total := by
  rw [times_eq_inOrder, ← inOrder_map f fun _ => a, List.map_replicate]

/-- A list of lists, one element after the other. -/
theorem inOrder_flatten {ε σ α : Type} (f : α → EStateM ε σ Int) (ass : List (List α))
    (total : Int) : inOrder f ass.flatten total = inOrder (fun as => inOrder f as 0) ass total := by
  induction ass generalizing total with
  | nil => rfl
  | cons as ass ih =>
    rw [List.flatten_cons, inOrder_append, inOrder_total, bind_assoc, inOrder_cons]
    exact bind_congr fun k => by rw [pure_bind, ih]

/-- What relates a result to itself and goes on from step to step relates two ways of doing things
in order, if it relates the two ways of doing each of them. -/
theorem inOrder_rel {ε σ ε' σ' α : Type} {R : EStateM ε σ Int → EStateM ε' σ' Int → Prop}
    (hpure : ∀ k, R (pure k) (pure k))
    (hbind : ∀ {x y f g}, R x y → (∀ k, R (f k) (g k)) → R (x >>= f) (y >>= g))
    {f : α → EStateM ε σ Int} {g : α → EStateM ε' σ' Int} {as : List α}
    (h : ∀ a ∈ as, R (f a) (g a)) (total : Int) : R (inOrder f as total) (inOrder g as total) := by
  induction as generalizing total with
  | nil => exact hpure total
  | cons a as ih =>
    obtain ⟨hhead, htail⟩ := List.forall_mem_cons.mp h
    rw [inOrder_cons, inOrder_cons]
    exact hbind hhead fun k => ih htail (total + k)

theorem inOrder_congr {ε σ α : Type} {f g : α → EStateM ε σ Int} {as : List α}
    (h : ∀ a ∈ as, f a = g a) (total : Int) : inOrder f as total = inOrder g as total := by
  induction as generalizing total with
  | nil => rfl
  | cons a as ih =>
    obtain ⟨hhead, htail⟩ := List.forall_mem_cons.mp h
    funext s
    simp only [inOrder, hhead, ih htail]

theorem Run.since_append {r r' : Run ρ} {w : List Char}
    (h : r'.text.toList = r.text.toList ++ w) : r'.since r.text.size = w := by
  rw [since, Array.toList_extract, h, List.extract_eq_take_drop]
  have hsize : r'.text.size = r.text.size + w.length := by
    simpa using congrArg List.length h
  rw [hsize]
  simp

namespace Act

variable [Draws ρ]

/-- A number of repetitions is within the bounds, and nothing is written for it. -/
theorem count_eq_ok {b : Bounds} {r r' : Run ρ} {n : Int} (hb : b.lo ≤ b.hi)
    (h : count b r = .ok n r') : b.lo ≤ n ∧ n ≤ b.hi ∧ r'.text = r.text := by
  simp only [count] at h
  split at h
  · rename_i hd
    cases h
    obtain ⟨hlo, hhi⟩ := Bounds.count_mem hb hd
    exact ⟨hlo, hhi, rfl⟩
  · cases h

/-- A number of repetitions cannot be drawn only if the bounds are too wide. -/
theorem count_eq_error {b : Bounds} {r r' : Run ρ} {e : Failure} (hb : b.lo ≤ b.hi)
    (h : count b r = .error e r') : e = .tooWide ∧ b.TooWide := by
  simp only [count, Bounds.count] at h
  split at h
  · cases h
  · rename_i d hd
    cases h
    split at hd
    · cases hd
    · rw [Prod.mk.injEq] at hd
      exact ⟨rfl, Bounds.tooWide_of_share hb hd.1⟩

/-- Between equal bounds there is nothing to draw. -/
@[simp]
theorem count_of_eq {b : Bounds} (hb : b.lo = b.hi) : (count b : Act ρ Int) = pure b.lo := by
  funext r
  simp only [count, Bounds.count, if_pos hb]
  rfl

@[simp] theorem repeated_once (act : Act ρ Int) : repeated ⟨1, 1⟩ act = act := by
  funext r
  change times act 1 0 r = act r
  simp only [times]
  cases act r with
  | ok k r₁ => simp
  | error e r₁ => rfl

/-- A choice is one of the elements, and nothing is written for it. -/
theorem pick_eq_ok {t u : Tree} {ts : List Tree} {r r' : Run ρ} (h : pick t ts r = .ok u r') :
    u ∈ t :: ts ∧ r'.text = r.text := by
  simp only [pick] at h
  split at h
  · rename_i v hv
    cases h
    exact ⟨List.mem_of_getElem? hv, rfl⟩
  · cases h

/-- A choice fails only if the draw is the place of no element. -/
theorem pick_eq_error {t : Tree} {ts : List Tree} {r r' : Run ρ} {e : Failure}
    (h : pick t ts r = .error e r') : e = .noRule := by
  simp only [pick] at h
  split at h
  · cases h
  · cases h
    rfl

/-- A choice among images is the image of the choice. -/
@[simp] theorem pick_map_bind (h : Tree → Tree) (t : Tree) (ts : List Tree) (f : Tree → Act ρ Int) :
    pick (h t) (ts.map h) >>= f = pick t ts >>= fun u => f (h u) := by
  funext r
  simp only [Bind.bind, EStateM.bind, pick, List.length_map, ← List.map_cons, List.getElem?_map]
  cases (t :: ts)[(Draws.below (ts.length + 1) r.draws).1]? with
  | none => rfl
  | some u => rfl

theorem pick_bind_congr {t : Tree} {ts : List Tree} {f g : Tree → Act ρ Int}
    (h : ∀ u ∈ t :: ts, f u = g u) : pick t ts >>= f = pick t ts >>= g := by
  funext r
  simp only [Bind.bind, EStateM.bind]
  cases hp : pick t ts r with
  | ok u r₁ =>
    simp only
    rw [h u (pick_eq_ok hp).1]
  | error e r₁ => rfl

/-- A lawful draw always is the place of an element. -/
@[simp]
theorem pick_ne_error [LawfulDraws ρ] (t : Tree) (ts : List Tree) (r r' : Run ρ) (e : Failure) :
    pick t ts r ≠ .error e r' := by
  have hlt : (Draws.below (ts.length + 1) r.draws).1 < (t :: ts).length :=
    LawfulDraws.below_lt _ _ (Nat.succ_pos _)
  simp only [pick, List.getElem?_eq_getElem hlt]
  simp

end Act

namespace Setting

section

variable {s : Setting} {tree? : Name → Option Tree} {name : Name} {u : Tree}

theorem rule_of_defined (h : s.book.Resolves tree?) (hu : tree? name = some u) :
    (s.rule name (s.book.slotOf name) : Act ρ Tree) = pure (u.link s.book.slotOf) := by
  obtain ⟨i, hi, hr⟩ := h.defined hu
  simp only [rule, hi, hr]

theorem rule_of_undefined (h : s.book.Resolves tree?) (hu : tree? name = none) :
    (s.rule name (s.book.slotOf name) : Act ρ Tree) = throw (.unknown name) := by
  simp only [rule, h.undefined hu]

/-- What a reference resolves to is the linked tree of its name. -/
theorem rule_eq_ok {v : Tree} {r r' : Run ρ} (h : s.book.Resolves tree?)
    (hv : s.rule name (s.book.slotOf name) r = .ok v r') :
    ∃ u, tree? name = some u ∧ v = u.link s.book.slotOf := by
  cases hu : tree? name with
  | none =>
    rw [rule_of_undefined h hu] at hv
    cases hv
  | some u =>
    rw [rule_of_defined h hu] at hv
    cases hv
    exact ⟨u, rfl, rfl⟩

/-- The rule of a reference is there, or the slot is empty, or there is no slot. -/
theorem rule_cases (s : Setting) (name : Name) (slot : Option Int) :
    (∃ t, (s.rule name slot : Act ρ Tree) = pure t) ∨
      (s.rule name slot : Act ρ Tree) = throw .noRule ∨
      (s.rule name slot : Act ρ Tree) = throw (.unknown name) := by
  cases slot with
  | none => exact .inr (.inr rfl)
  | some i =>
    simp only [rule]
    cases s.book.rule? i with
    | none => exact .inr (.inl rfl)
    | some t => exact .inl ⟨t, rfl⟩

end

section

variable [Draws ρ] (s : Setting) (room : Nat) (b : Bounds)

@[simp] theorem expandWithin_zero (t : Tree) :
    s.expandWithin 0 t = (throw (.tooDeep s.budget) : Act ρ Int) := rfl

@[simp] theorem expandWithin_particle (v : List Char) :
    s.expandWithin (room + 1) (.particle v b) = (Act.repeated b (Act.emit v) : Act ρ Int) := rfl

@[simp] theorem expandWithin_reference (name : Name) (slot : Option Int) :
    s.expandWithin (room + 1) (.reference name b slot) =
      (Act.repeated b (s.rule name slot >>= s.expandWithin room) : Act ρ Int) := rfl

@[simp] theorem expandWithin_choice (t : Tree) (ts : List Tree) :
    s.expandWithin (room + 1) (.choice (t :: ts) b) =
      (Act.repeated b (Act.pick t ts >>= s.expandWithin room) : Act ρ Int) := rfl

@[simp] theorem expandWithin_sequence (ts : List Tree) :
    s.expandWithin (room + 1) (.sequence ts b) =
      (Act.repeated b (inOrder (s.expandWithin room) ts 0) : Act ρ Int) := rfl

end

/-- What holds of the expansion of a tree in shape, in the rulebook of a table of texts, if it holds
where the budget is used up and is handed on by every kind of node, from its children and from the
rule of its name, which have one level less. The children are named as they are before they are
linked. -/
theorem expandWithin_induct_room [Draws ρ] {s : Setting} {texts : Table Name (List Char)}
    (hb : Rulebook.build (Definition.ofTexts texts) = .ok s.book)
    {motive : Nat → Tree → Act ρ Int → Prop}
    (tooDeep : ∀ u, motive 0 u (throw (.tooDeep s.budget)))
    (particle : ∀ n c b, b.Valid → motive (n + 1) (.particle [c] b) (Act.repeated b (Act.emit [c])))
    (undefined : ∀ n name b slot, b.Valid → treeOf texts name = none →
      motive (n + 1) (.reference name b slot) (Act.repeated b (throw (.unknown name))))
    (defined : ∀ n name b slot t act, b.Valid → treeOf texts name = some t → motive n t act →
      motive (n + 1) (.reference name b slot) (Act.repeated b act))
    (choice : ∀ n t ts b f, b.Valid → (∀ u ∈ t :: ts, motive n u (f u)) →
      motive (n + 1) (.choice (t :: ts) b) (Act.repeated b (Act.pick t ts >>= f)))
    (sequence : ∀ n ts b f, b.Valid → (∀ u ∈ ts, motive n u (f u)) →
      motive (n + 1) (.sequence ts b) (Act.repeated b (inOrder f ts 0)))
    (room : Nat) {u : Tree} (hu : u.Shaped) :
    motive room u (s.expandWithin room (u.link s.book.slotOf)) := by
  have hres := Rulebook.resolves_of_build hb
  -- on the room: a reference goes on with its rule, which is no part of the tree
  induction room generalizing u with
  | zero => exact tooDeep u
  | succ room ih =>
    cases hu with
    | particle hv => exact particle room _ _ hv
    | @reference name b slot hv =>
      rw [Tree.link, expandWithin_reference]
      cases ht : treeOf texts name with
      | none =>
        rw [rule_of_undefined hres ht]
        exact undefined room name b slot hv ht
      | some t =>
        rw [rule_of_defined hres ht, pure_bind]
        obtain ⟨source, p, hp, rfl⟩ := exists_compile_of_treeOf ht
        exact defined room name b slot p.root _ hv ht (ih (Pattern.shaped_root hp))
    | @choice ts b hv hne hts =>
      cases ts with
      | nil => exact absurd rfl hne
      | cons t ts =>
        simpa using choice room t ts b _ hv fun u hu => ih (hts u hu)
    | @sequence ts b hv hts =>
      simpa using sequence room ts b _ hv fun u hu => ih (hts u hu)

/-- The induction on expansions for what does not depend on the room. -/
theorem expandWithin_induct [Draws ρ] {s : Setting} {texts : Table Name (List Char)}
    (hb : Rulebook.build (Definition.ofTexts texts) = .ok s.book)
    {motive : Tree → Act ρ Int → Prop}
    (tooDeep : ∀ u, motive u (throw (.tooDeep s.budget)))
    (particle : ∀ c b, b.Valid → motive (.particle [c] b) (Act.repeated b (Act.emit [c])))
    (undefined : ∀ name b slot, b.Valid → treeOf texts name = none →
      motive (.reference name b slot) (Act.repeated b (throw (.unknown name))))
    (defined : ∀ name b slot t act, b.Valid → treeOf texts name = some t → motive t act →
      motive (.reference name b slot) (Act.repeated b act))
    (choice : ∀ t ts b f, b.Valid → (∀ u ∈ t :: ts, motive u (f u)) →
      motive (.choice (t :: ts) b) (Act.repeated b (Act.pick t ts >>= f)))
    (sequence : ∀ ts b f, b.Valid → (∀ u ∈ ts, motive u (f u)) →
      motive (.sequence ts b) (Act.repeated b (inOrder f ts 0)))
    (room : Nat) {u : Tree} (hu : u.Shaped) :
    motive u (s.expandWithin room (u.link s.book.slotOf)) :=
  expandWithin_induct_room (motive := fun _ => motive) hb tooDeep (fun _ => particle)
    (fun _ => undefined) (fun _ => defined) (fun _ => choice) (fun _ => sequence) room hu

section

variable [Draws ρ] {s : Setting} {t : Tree} {r r' : Run ρ}

/-- A word is what its expansion has written. -/
theorem word_eq_ok {w : List Char} :
    s.word t r = .ok w r' ↔ (∃ k, s.expand t 0 r = .ok k r') ∧ w = r'.since r.text.size := by
  simp only [word]
  cases s.expand t 0 r with
  | ok k r₁ =>
    constructor
    · intro h
      cases h
      exact ⟨⟨k, rfl⟩, rfl⟩
    · rintro ⟨⟨k, h⟩, rfl⟩
      cases h
      rfl
  | error e r₁ => simp

theorem word_eq_error {a : Abort} :
    s.word t r = .error a r' ↔
      s.expand t 0 r = .error a.failure r' ∧ a.written = r'.since r.text.size := by
  obtain ⟨e, w⟩ := a
  simp only [word]
  cases s.expand t 0 r with
  | ok k r₁ => simp
  | error e₁ r₁ =>
    constructor
    · intro h
      cases h
      exact ⟨rfl, rfl⟩
    · rintro ⟨h, rfl⟩
      cases h
      rfl

/-- A word is told by the expansion of its tree at the root. -/
theorem word_congr {s' : Setting} {t' : Tree}
    (h : (s'.expand t' 0 : Act ρ Int) = s.expand t 0) :
    (s'.word t' : EStateM Abort (Run ρ) (List Char)) = s.word t := by
  funext r
  simp only [word, h]

theorem words_congr {s' : Setting} {t' : Tree}
    (h : (s'.expand t' 0 : Act ρ Int) = s.expand t 0) (n : Nat) (made : Array (List Char)) :
    (s'.words t' n made : EStateM Abort (Run ρ) (List (List Char))) = s.words t n made := by
  induction n generalizing made with
  | zero => rfl
  | succ n ih =>
    funext r
    simp only [words, word_congr h, ih]

/-- A tree in shape is linked before a word is made from it. -/
theorem generate_eq_word (h : t.Shaped) :
    (s.generate t : EStateM Abort (Run ρ) (List Char)) = s.word (t.link s.book.slotOf) := by
  funext r
  simp only [generate, h.link?_eq]

end

end Setting

end Coinage
