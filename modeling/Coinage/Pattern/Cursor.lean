import Coinage.Bounds
import Coinage.Name
import Coinage.Pattern.Flaw

/-!
# Cursors

A cursor stands in the text of a pattern and moves forward only. Numbers and identifiers are read
as long as they go; a failed reading leaves the cursor where the failure was noticed.
-/

namespace Coinage

/-- How many characters have been read, and those that are left. -/
structure Cursor where
  pos : Nat
  rest : List Char
deriving DecidableEq, Repr

abbrev Scan := EStateM Stop Cursor

namespace Cursor

def start (source : List Char) : Cursor := ⟨0, source⟩

def skip (n : Nat) (c : Cursor) : Cursor := ⟨c.pos + n, c.rest.drop n⟩

def peek (c : Cursor) : Option Char := c.rest.head?

def atEnd (c : Cursor) : Bool := c.rest.isEmpty

/-- The character at the cursor, and the cursor behind it; at the end there is none, and the
cursor stays. -/
def next (c : Cursor) : Option Char × Cursor :=
  match c.rest with
  | [] => (none, c)
  | x :: r => (some x, ⟨c.pos + 1, r⟩)

theorem length_skip_le (n : Nat) (c : Cursor) : (c.skip n).rest.length ≤ c.rest.length := by
  simp [skip]

end Cursor

namespace Scan

/-- The cursor after a reading, whether it succeeds or stops. -/
def after {α : Type} (s : Scan α) (c : Cursor) : Cursor :=
  match s c with
  | .ok _ c' => c'
  | .error _ c' => c'

/-- A number: all digits that follow, of which there must be one and may not be too many. -/
def integer : Scan Nat := fun c =>
  let ds := c.rest.takeWhile isDigit
  if ds = [] then .error (.flaw .badNumber c.pos) c
  else if ds.length ≤ maxDigits then .ok (digitsValue ds) (c.skip ds.length)
  else .error (.digits ds.length) (c.skip ds.length)

/-- An identifier: a letter or underscore and all letters, digits and underscores behind it. -/
def identifier : Scan Name := fun c =>
  match c.rest with
  | [] => .error (.flaw .unexpectedEnd c.pos) c
  | x :: r =>
    if isNameStart x then
      let name := x :: r.takeWhile isNameChar
      .ok name (c.skip name.length)
    else .error (.flaw .badIdentifier c.pos) c

/-- The given character. Another one is passed over, and reported at its place. -/
def expect (x : Char) : Scan Unit := fun c =>
  match c.next with
  | (some y, c') => if y = x then .ok () c' else .error (.flaw (.missing x) c.pos) c'
  | (none, c') => .error (.flaw (.missing x) c.pos) c'

/-- The rest of a pair of bounds whose brace was opened at `opened`. -/
def braced (opened : Nat) : Scan Bounds := do
  let lo ← integer
  expect ','
  let hi ← integer
  expect '\x7d'
  if hi < lo then throw (.flaw (.inverted lo hi) opened)
  return ⟨lo, hi⟩

/-- The bounds that follow a token. A question mark or an opening brace always belongs to them;
in front of anything else nothing is read and the token stands for one repetition. -/
def bounds : Scan Bounds := fun c =>
  match c.rest with
  | '?' :: _ => .ok .optional (c.skip 1)
  | '\x7b' :: _ => braced c.pos (c.skip 1)
  | _ => .ok .once c

def Forward {α : Type} (s : Scan α) : Prop :=
  ∀ c, (s.after c).rest.length ≤ c.rest.length

theorem Forward.ok {α : Type} {s : Scan α} (h : Forward s) {c c' : Cursor} {a : α}
    (e : s c = .ok a c') : c'.rest.length ≤ c.rest.length := by
  simpa [after, e] using h c

theorem Forward.pure {α : Type} (a : α) : Forward (pure a : Scan α) :=
  fun _ => Nat.le_refl _

theorem Forward.throw {α : Type} (e : Stop) : Forward (throw e : Scan α) :=
  fun _ => Nat.le_refl _

theorem Forward.bind {α β : Type} {s : Scan α} {f : α → Scan β} (hs : Forward s)
    (hf : ∀ a, Forward (f a)) : Forward (s >>= f) := by
  intro c
  have h := hs c
  simp only [after, Bind.bind, EStateM.bind] at h ⊢
  cases e : s c with
  | ok a c' =>
    rw [e] at h
    exact Nat.le_trans (hf a c') h
  | error a c' =>
    rw [e] at h
    exact h

theorem forward_integer : Forward integer := by
  intro c
  simp only [after, integer]
  by_cases h₁ : c.rest.takeWhile isDigit = []
  · simp [h₁]
  · by_cases h₂ : (c.rest.takeWhile isDigit).length ≤ maxDigits <;>
      simp [h₁, h₂, Cursor.length_skip_le]

theorem forward_identifier : Forward identifier := by
  intro c
  simp only [after, identifier]
  cases hr : c.rest with
  | nil => simp [hr]
  | cons x r =>
    by_cases h : isNameStart x
    · simp only [h, ↓reduceIte]
      rw [← hr]
      exact Cursor.length_skip_le _ c
    · simp [h, hr]

theorem forward_expect (x : Char) : Forward (expect x) := by
  intro c
  cases c with
  | mk pos rest =>
    cases rest with
    | nil => simp [after, expect, Cursor.next]
    | cons y r => by_cases h : y = x <;> simp [after, expect, Cursor.next, h]

theorem forward_braced (opened : Nat) : Forward (braced opened) := by
  refine forward_integer.bind fun lo => (forward_expect _).bind fun _ =>
    forward_integer.bind fun hi => (forward_expect _).bind fun _ => ?_
  split
  · exact (Forward.throw _).bind fun _ => Forward.pure _
  · exact (Forward.pure _).bind fun _ => Forward.pure _

theorem forward_bounds : Forward bounds := by
  intro c
  unfold after bounds
  split
  · rename_i e
    split at e
    · cases e; exact Cursor.length_skip_le _ c
    · exact Nat.le_trans ((forward_braced c.pos).ok e) (Cursor.length_skip_le _ c)
    · cases e; exact Nat.le_refl _
  · rename_i e
    split at e
    · cases e
    · have h := forward_braced c.pos (c.skip 1)
      simp only [after, e] at h
      exact Nat.le_trans h (Cursor.length_skip_le _ c)
    · cases e

end Scan

end Coinage
