import Coinage.Proofs.Pattern.Flaws

/-!
# Walks of a cursor

A cursor is asked for one thing after the other, and a call that fails ends nothing but itself.
Whatever is asked for, the cursor stays within the text and does not go back, and the place of a
flaw lies between the places where the call finds and leaves the cursor.
-/

namespace Coinage

open Grammar

namespace Cursor

variable {c d e : Cursor} {source : List Char}

/-- The second cursor stands in the same text, at the same place or further on. -/
def Leads (c d : Cursor) : Prop := ∃ v, c.rest = v ++ d.rest ∧ d.pos = c.pos + v.length

theorem Leads.refl (c : Cursor) : c.Leads c := ⟨[], rfl, rfl⟩

theorem Leads.trans (h : c.Leads d) (h' : d.Leads e) : c.Leads e := by
  obtain ⟨v, hv, hd⟩ := h
  obtain ⟨w, hw, he⟩ := h'
  refine ⟨v ++ w, ?_, ?_⟩
  · rw [hv, hw, List.append_assoc]
  · rw [List.length_append]
    omega

theorem Leads.pos_le (h : c.Leads d) : c.pos ≤ d.pos := by
  obtain ⟨v, -, hd⟩ := h
  omega

@[simp] theorem leads_next (c : Cursor) : c.Leads c.next.2 := by
  obtain ⟨pos, rest⟩ := c
  cases rest with
  | nil => exact .refl _
  | cons x r => exact ⟨[x], rfl, rfl⟩

theorem leads_of_suffix {b : Bounds} (hs : Suffix c.rest b d.rest) (he : d.endPos = c.endPos) :
    c.Leads d := by
  obtain ⟨v, hv, -⟩ := hs.replace
  exact ⟨v, hv, pos_eq_of_endPos hv he⟩

/-- A cursor that has been led on from the start of a text is told by its place. -/
theorem Leads.of_start (h : (start source).Leads c) :
    c.pos ≤ source.length ∧ c.rest = source.drop c.pos := by
  obtain ⟨v, hv, hc⟩ := h
  have hsource : source = v ++ c.rest := hv
  have hpos : c.pos = v.length := hc.trans (Nat.zero_add _)
  constructor
  · rw [hsource, List.length_append]
    omega
  · rw [hsource, hpos, List.drop_left]

/-- The character at the cursor is the one at its place. -/
theorem Leads.getElem?_pos (h : (start source).Leads c) : source[c.pos]? = c.peek := by
  rw [peek, h.of_start.2, List.head?_drop]

/-- At the end of the text, and only there, all has been read. -/
theorem Leads.atEnd_eq (h : (start source).Leads c) :
    c.atEnd = decide (c.pos = source.length) := by
  obtain ⟨hle, hrest⟩ := h.of_start
  rw [atEnd, Bool.eq_iff_iff, decide_eq_true_iff, List.isEmpty_iff, hrest, List.drop_eq_nil_iff]
  omega

end Cursor

/-- The place of the reason lies between the two places, if it has one. -/
def Stop.LiesBetween (low high : Nat) : Stop → Prop
  | .flaw _ p => low ≤ p ∧ p ≤ high
  | .digits _ => True

namespace Scan

/-! ### What every reading keeps -/

section

variable {α β : Type} {low : Nat}

/-- The reading leads the cursor on. If it starts at the place `low` or behind it, the place of a
flaw lies between `low` and the place where the cursor is left. -/
structure Steady (low : Nat) (s : Scan α) : Prop where
  ok {c d : Cursor} {a : α} : s c = .ok a d → c.Leads d
  error {c d : Cursor} {e : Stop} : s c = .error e d → c.Leads d
  place {c d : Cursor} {e : Stop} : low ≤ c.pos → s c = .error e d → e.LiesBetween low d.pos

/-- What never fails only has to lead the cursor on. -/
theorem Steady.look {f : Cursor → α} {g : Cursor → Cursor} (h : ∀ c : Cursor, c.Leads (g c)) :
    Steady low (fun c => .ok (f c) (g c)) where
  ok he := by
    cases he
    exact h _
  error he := by cases he
  place _ he := by cases he

theorem Steady.pure (a : α) : Steady low (pure a : Scan α) := .look Cursor.Leads.refl

/-- A flaw may be reported at the place `low` itself, however far the cursor has come. -/
theorem Steady.throw (what : Flaw) : Steady low (throw (.flaw what low) : Scan α) where
  ok h := by cases h
  error h := by
    cases h
    exact .refl _
  place hlow h := by
    cases h
    exact ⟨Nat.le_refl _, hlow⟩

theorem Steady.bind {s : Scan α} {f : α → Scan β} (hs : Steady low s)
    (hf : ∀ a, Steady low (f a)) : Steady low (s >>= f) where
  ok h := by
    obtain ⟨a, c₁, ha, hb⟩ := stateM_bind_eq_ok.mp h
    exact (hs.ok ha).trans ((hf a).ok hb)
  error h := by
    rcases stateM_bind_eq_error.mp h with h | ⟨a, c₁, ha, hb⟩
    · exact hs.error h
    · exact (hs.ok ha).trans ((hf a).error hb)
  place hlow h := by
    rcases stateM_bind_eq_error.mp h with h | ⟨a, c₁, ha, hb⟩
    · exact hs.place hlow h
    · have hle := (hs.ok ha).pos_le
      exact (hf a).place (Nat.le_trans hlow hle) hb

theorem steady_integer : Steady low integer where
  ok h := by
    obtain ⟨ds, r, hs, -, -, rfl⟩ := integer_eq_ok.mp h
    exact ⟨ds, hs, rfl⟩
  error h := by
    rcases integer_eq_error.mp h with ⟨-, -, rfl⟩ | ⟨ds, r, hs, -, -, rfl⟩
    · exact .refl _
    · exact ⟨ds, hs, rfl⟩
  place hlow h := by
    rcases integer_eq_error.mp h with ⟨-, rfl, rfl⟩ | ⟨ds, r, -, -, rfl, -⟩
    · exact ⟨hlow, Nat.le_refl _⟩
    · trivial

theorem steady_identifier : Steady low identifier where
  ok h := by
    obtain ⟨r, hs, -, rfl⟩ := identifier_eq_ok.mp h
    exact ⟨_, hs, rfl⟩
  error h := by
    obtain ⟨rfl, -⟩ := identifier_eq_error.mp h
    exact .refl _
  place hlow h := by
    obtain ⟨rfl, ⟨-, rfl⟩ | ⟨x, r, -, -, rfl⟩⟩ := identifier_eq_error.mp h
    · exact ⟨hlow, Nat.le_refl _⟩
    · exact ⟨hlow, Nat.le_refl _⟩

/-- The cursor is left behind the character that is reported. -/
theorem steady_expect (x : Char) : Steady low (expect x) where
  ok h := by
    obtain ⟨r, hs, rfl⟩ := expect_eq_ok.mp h
    exact ⟨[x], hs, rfl⟩
  error {c d e} h := by
    obtain ⟨-, -, rfl⟩ := expect_eq_error.mp h
    exact c.leads_next
  place {c d e} hlow h := by
    obtain ⟨-, rfl, rfl⟩ := expect_eq_error.mp h
    exact ⟨hlow, c.leads_next.pos_le⟩

/-- The only flaw in front of the place where the rest of the bounds begins is that they are in the
wrong order. -/
theorem steady_braced (opened : Nat) : Steady opened (braced opened) := by
  apply steady_integer.bind
  intro lo
  apply (steady_expect ',').bind
  intro _
  apply steady_integer.bind
  intro hi
  apply (steady_expect '\x7d').bind
  intro _
  split
  · exact (Steady.throw _).bind fun _ => .pure _
  · exact (Steady.pure _).bind fun _ => .pure _

/-- Bounds that cannot be read begin with a brace, and the cursor is left behind it. -/
theorem behind_brace_of_bounds {c d : Cursor} {e : Stop} (h : bounds c = .error e d) :
    ∃ s, c.rest = '\x7b' :: s ∧ Cursor.Leads ⟨c.pos + 1, s⟩ d := by
  obtain ⟨s, hs, hb⟩ := bounds_eq_error.mp h
  exact ⟨s, hs, (steady_braced c.pos).error hb⟩

theorem steady_bounds : Steady low bounds where
  ok h := by
    obtain ⟨hs, he⟩ := bounds_eq_ok.mp h
    exact Cursor.leads_of_suffix hs he
  error {c d e} h := by
    obtain ⟨s, hs, hleads⟩ := behind_brace_of_bounds h
    have hopen : c.Leads ⟨c.pos + 1, s⟩ := ⟨['\x7b'], hs, rfl⟩
    exact hopen.trans hleads
  place {c d e} hlow h := by
    obtain ⟨s, -, hb⟩ := bounds_eq_error.mp h
    -- bounds in the wrong order are reported at the brace, where the reading has begun
    have hplace := (steady_braced c.pos).place (Nat.le_succ _) hb
    cases e with
    | flaw what p =>
      obtain ⟨hle, hle'⟩ := hplace
      exact ⟨Nat.le_trans hlow hle, hle'⟩
    | digits count => trivial

end

/-! ### Calls -/

inductive Call where
  | peek
  | next
  | atEnd
  | integer
  | identifier
  | bounds

namespace Call

abbrev Answer : Call → Type
  | peek => Option Char
  | next => Option Char
  | atEnd => Bool
  | integer => Nat
  | identifier => Name
  | bounds => Bounds

/-- Makes the call. Only readings can fail. -/
def perform : (k : Call) → Scan k.Answer
  | peek => fun c => .ok c.peek c
  | next => fun c => .ok c.next.1 c.next.2
  | atEnd => fun c => .ok c.atEnd c
  | integer => Scan.integer
  | identifier => Scan.identifier
  | bounds => Scan.bounds

theorem steady_perform (k : Call) (low : Nat) : Steady low k.perform := by
  cases k with
  | peek => exact .look Cursor.Leads.refl
  | next => exact .look Cursor.leads_next
  | atEnd => exact .look Cursor.Leads.refl
  | integer => exact steady_integer
  | identifier => exact steady_identifier
  | bounds => exact steady_bounds

end Call

/-- A call that has been made: where it found the cursor, what it answered and where it left the
cursor. -/
structure Step where
  call : Call
  before : Cursor
  answer : Except Refusal call.Answer
  after : Cursor

/-- A run of characters of one kind that is as long as it can be: it begins at the place `start` of
the text and ends in front of the place `stop`, where no character of the kind stands. There is at
least one character in it. -/
structure MaximalRun (p : Char → Bool) (source : List Char) (start stop : Nat)
    (run : List Char) : Prop where
  lt : start < stop
  length : stop = start + run.length
  split : source.drop start = run ++ source.drop stop
  ofKind : ∀ x ∈ run, p x = true
  maximal : ∀ x ∈ source[stop]?, p x = false

namespace Step

/-- What a call does. A look leaves the cursor where it is, and a character that is taken moves it
by one, unless all has been read. A number or an identifier is the longest run of its kind, and at
least one character; where there is none the cursor stays, and a run of too many digits is passed
over. Bounds that are read are a suffix in front of what is left, and bounds that cannot be read
have been opened by a brace, which is passed over. -/
def Effect (source : List Char) : Step → Prop
  | ⟨.peek, before, answer, after⟩ => answer = .ok source[before.pos]? ∧ after = before
  | ⟨.next, before, answer, after⟩ => answer = .ok source[before.pos]? ∧
      after.pos = if before.atEnd then before.pos else before.pos + 1
  | ⟨.atEnd, before, answer, after⟩ =>
      answer = .ok (decide (before.pos = source.length)) ∧ after = before
  | ⟨.integer, before, .ok n, after⟩ =>
      ∃ run, MaximalRun isDigit source before.pos after.pos run ∧ digitsValue run = n
  | ⟨.integer, before, .error e, after⟩ =>
      if source[before.pos]?.any isDigit then
        ∃ run, MaximalRun isDigit source before.pos after.pos run ∧ maxDigits < run.length ∧
          e = .digits run.length
      else after = before ∧ e = .pattern ⟨.badNumber, source, before.pos⟩
  | ⟨.identifier, before, .ok name, after⟩ =>
      MaximalRun isNameChar source before.pos after.pos name ∧ isIdentifier name = true
  | ⟨.identifier, before, .error _, after⟩ => after = before
  | ⟨.bounds, before, .ok b, after⟩ => Suffix before.rest b after.rest
  | ⟨.bounds, before, .error _, after⟩ => before.peek = some '\x7b' ∧ before.pos < after.pos

/-- What holds of every call in a text: the cursor is left within the text and not in front of where
it was found, the call does what it has to, and a flaw is reported with the text, at a place from
where the cursor was found up to where it is left. -/
structure Lawful (source : List Char) (x : Step) : Prop where
  pos_le : x.after.pos ≤ source.length
  rest_eq : x.after.rest = source.drop x.after.pos
  forward : x.before.pos ≤ x.after.pos
  effect : x.Effect source
  flaw : ∀ e, x.answer = .error (.pattern e) →
    e.source = source ∧ x.before.pos ≤ e.pos ∧ e.pos ≤ x.after.pos

end Step

/-- Makes a call in the text and writes down what it does. -/
def step (source : List Char) (k : Call) (c : Cursor) : Step :=
  match k.perform c with
  | .ok a d => ⟨k, c, .ok a, d⟩
  | .error e d => ⟨k, c, .error (e.refusal source), d⟩

/-- Makes the calls one after the other, whether they succeed or fail. -/
def walk (source : List Char) : List Call → Cursor → List Step
  | [], _ => []
  | k :: ks, c =>
    let x := step source k c
    x :: walk source ks x.after

/-! ### One call -/

section

variable {source : List Char} {k : Call} {c : Cursor}

theorem step_cases (source : List Char) (k : Call) (c : Cursor) :
    (∃ a d, k.perform c = .ok a d ∧ step source k c = ⟨k, c, .ok a, d⟩) ∨
      ∃ e d, k.perform c = .error e d ∧
        step source k c = ⟨k, c, .error (e.refusal source), d⟩ := by
  cases h : k.perform c with
  | ok a d => exact .inl ⟨a, d, rfl, by simp only [step, h]⟩
  | error e d => exact .inr ⟨e, d, rfl, by simp only [step, h]⟩

@[simp] theorem step_call : (step source k c).call = k := by
  rcases step_cases source k c with ⟨a, d, -, hx⟩ | ⟨e, d, -, hx⟩ <;> rw [hx]

@[simp] theorem step_before : (step source k c).before = c := by
  rcases step_cases source k c with ⟨a, d, -, hx⟩ | ⟨e, d, -, hx⟩ <;> rw [hx]

theorem leads_step : c.Leads (step source k c).after := by
  rcases step_cases source k c with ⟨a, d, h, hx⟩ | ⟨e, d, h, hx⟩
  · rw [hx]
    exact (k.steady_perform 0).ok h
  · rw [hx]
    exact (k.steady_perform 0).error h

/-- Characters that are taken off what is left as long as they are of one kind make up the longest
run from the cursor on. -/
theorem maximalRun_of_rest {p : Char → Bool} {run r : List Char}
    (hc : (Cursor.start source).Leads c) (hs : c.rest = run ++ r) (hne : run ≠ [])
    (hrun : ∀ x ∈ run, p x = true) (hr : ∀ x ∈ r.head?, p x = false) :
    MaximalRun p source c.pos (c.pos + run.length) run := by
  have hd : (Cursor.start source).Leads ⟨c.pos + run.length, r⟩ := hc.trans ⟨run, hs, rfl⟩
  have hrest : c.rest = source.drop c.pos := hc.of_start.2
  have hbehind : r = source.drop (c.pos + run.length) := hd.of_start.2
  have hpos : 0 < run.length := List.length_pos_iff.mpr hne
  constructor
  · omega
  · rfl
  · rw [← hrest, ← hbehind, hs]
  · exact hrun
  · rw [← List.head?_drop, ← hbehind]
    exact hr

theorem effect_next (hc : (Cursor.start source).Leads c) :
    (step source .next c).Effect source := by
  have hpeek := hc.getElem?_pos
  obtain ⟨pos, rest⟩ := c
  cases rest with
  | nil => exact ⟨congrArg Except.ok hpeek.symm, rfl⟩
  | cons x r => exact ⟨congrArg Except.ok hpeek.symm, rfl⟩

theorem effect_integer (hc : (Cursor.start source).Leads c) :
    (step source .integer c).Effect source := by
  rcases step_cases source .integer c with ⟨n, d, h, hx⟩ | ⟨e, d, h, hx⟩
  · rw [hx]
    obtain ⟨ds, r, hs, hn, hr, rfl⟩ := integer_eq_ok.mp h
    exact ⟨ds, maximalRun_of_rest hc hs hn.nonempty hn.digits hr, hn.value⟩
  · rw [hx]
    simp only [Step.Effect, hc.getElem?_pos]
    rcases integer_eq_error.mp h with ⟨hr, rfl, rfl⟩ | ⟨ds, r, hs, hlong, rfl, rfl⟩
    · have hnone : d.peek.any isDigit = false := (Option.any_eq_false _ _).mpr hr
      rw [if_neg (by simp [hnone])]
      exact ⟨rfl, rfl⟩
    · have hne : ds ≠ [] := List.ne_nil_of_length_pos (Nat.zero_lt_of_lt hlong.long)
      have hdigit : c.peek.any isDigit = true := by
        obtain ⟨x, xs, rfl⟩ := List.exists_cons_of_ne_nil hne
        rw [Cursor.peek, hs]
        exact hlong.digits x List.mem_cons_self
      rw [if_pos hdigit]
      exact ⟨ds, maximalRun_of_rest hc hs hne hlong.digits hlong.maximal, hlong.long, rfl⟩

theorem effect_identifier (hc : (Cursor.start source).Leads c) :
    (step source .identifier c).Effect source := by
  rcases step_cases source .identifier c with ⟨name, d, h, hx⟩ | ⟨e, d, h, hx⟩
  · rw [hx]
    obtain ⟨r, hs, hname, rfl⟩ := identifier_eq_ok.mp h
    have hid := hname.isIdentifier
    have hne : name ≠ [] := by
      rintro rfl
      cases hid
    exact ⟨maximalRun_of_rest hc hs hne (fun x => isNameChar_of_mem hid) hname.maximal, hid⟩
  · rw [hx]
    exact (identifier_eq_error.mp h).1

theorem effect_bounds : (step source .bounds c).Effect source := by
  rcases step_cases source .bounds c with ⟨b, d, h, hx⟩ | ⟨e, d, h, hx⟩
  · rw [hx]
    exact (bounds_eq_ok.mp h).1
  · rw [hx]
    obtain ⟨s, hs, hleads⟩ := behind_brace_of_bounds h
    exact ⟨congrArg List.head? hs, hleads.pos_le⟩

theorem effect_step (hc : (Cursor.start source).Leads c) : (step source k c).Effect source := by
  cases k with
  | peek => exact ⟨congrArg Except.ok hc.getElem?_pos.symm, rfl⟩
  | next => exact effect_next hc
  | atEnd => exact ⟨congrArg Except.ok hc.atEnd_eq, rfl⟩
  | integer => exact effect_integer hc
  | identifier => exact effect_identifier hc
  | bounds => exact effect_bounds

theorem flaw_step {e : PatternError} (h : (step source k c).answer = .error (.pattern e)) :
    e.source = source ∧ c.pos ≤ e.pos ∧ e.pos ≤ (step source k c).after.pos := by
  rcases step_cases source k c with ⟨a, d, -, hx⟩ | ⟨stop, d, hk, hx⟩
  · rw [hx] at h
    cases h
  · rw [hx] at h ⊢
    have hplace := (k.steady_perform c.pos).place (Nat.le_refl _) hk
    cases stop with
    | flaw what p =>
      cases h
      exact ⟨rfl, hplace⟩
    | digits count => cases h

/-- What one call does where the cursor has been led to from the start. -/
theorem lawful_step (hc : (Cursor.start source).Leads c) : (step source k c).Lawful source where
  pos_le := (hc.trans leads_step).of_start.1
  rest_eq := (hc.trans leads_step).of_start.2
  forward := by
    rw [step_before]
    exact leads_step.pos_le
  effect := effect_step hc
  flaw e he := by
    rw [step_before]
    exact flaw_step he

end

/-! ### Whole walks -/

section

variable {source : List Char} {calls : List Call} {c : Cursor} {x : Step}

@[simp] theorem map_call_walk : (walk source calls c).map Step.call = calls := by
  induction calls generalizing c with
  | nil => rfl
  | cons k ks ih => rw [walk, List.map_cons, step_call, ih]

/-- Every call of a walk is made where the calls before it have led the cursor. -/
theorem leads_of_mem_walk (hx : x ∈ walk source calls c) :
    c.Leads x.before ∧ x = step source x.call x.before := by
  -- on the calls, wherever the cursor is: the ones behind the first start where it has left off
  induction calls generalizing c with
  | nil => cases hx
  | cons k ks ih =>
    rcases List.mem_cons.mp hx with rfl | hx
    · rw [step_before, step_call]
      exact ⟨.refl c, rfl⟩
    · obtain ⟨hleads, heq⟩ := ih hx
      exact ⟨leads_step.trans hleads, heq⟩

theorem pairwise_walk :
    (walk source calls c).Pairwise fun x y => x.after.pos ≤ y.before.pos := by
  induction calls generalizing c with
  | nil => exact .nil
  | cons k ks ih =>
    have hlater (y : Step) (hy : y ∈ walk source ks (step source k c).after) :
        (step source k c).after.pos ≤ y.before.pos := (leads_of_mem_walk hy).1.pos_le
    exact List.pairwise_cons.mpr ⟨hlater, ih⟩

end

/-- Cursors over whole walks. Whatever the text is and whatever is asked for, calls that fail among
them, every call is made and lawful: it leaves the cursor within the text and not in front of where
it finds it, it does what it has to, and if it reports a flaw, it does so with the text and at a
place between the two. No later call finds the cursor in front of where an earlier one has left
it. -/
theorem walks_go_forward_within_the_text (source : List Char) (calls : List Call) :
    let steps := walk source calls (.start source)
    steps.map Step.call = calls ∧ (∀ x ∈ steps, x.Lawful source) ∧
      steps.Pairwise fun x y => x.after.pos ≤ y.before.pos := by
  refine ⟨map_call_walk, fun x hx => ?_, pairwise_walk⟩
  obtain ⟨hleads, heq⟩ := leads_of_mem_walk hx
  rw [heq]
  exact lawful_step hleads

/-- Bounds that cannot be read for a character in their middle, a number and an identifier asked for
behind it, and calls at the end of the text. -/
theorem walks_go_forward_within_the_text_semicolon :
    let source := "\x7b12;a1".toList
    let calls : List Call := [.bounds, .integer, .identifier, .next, .atEnd, .identifier]
    let steps := walk source calls (.start source)
    let halfway : Step :=
      ⟨.bounds, .start source, .error (.pattern ⟨.missing ',', source, 3⟩), ⟨4, ['a', '1']⟩⟩
    steps.map (fun x => x.after.pos) = [4, 4, 6, 6, 6, 6] ∧ halfway ∈ steps ∧
      halfway.Lawful source ∧ steps.Pairwise fun x y => x.after.pos ≤ y.before.pos := by
  intro source calls steps halfway
  obtain ⟨-, hlaw, hpairwise⟩ := walks_go_forward_within_the_text source calls
  have hhalfway : halfway ∈ steps := List.mem_cons_self
  exact ⟨rfl, hhalfway, hlaw halfway hhalfway, hpairwise⟩

end Scan

end Coinage
