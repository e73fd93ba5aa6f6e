import Coinage.Pattern.Cursor

/-!
# Lexemes

A pattern is read as a list of lexemes: the openings of groups, references, escaped characters, and
all other characters, each with the bounds written behind it. Closing brackets are characters like
others here, since what they close depends on the groups that are open. Spaces and tabs in front of
a lexeme, and at the end, are skipped.

Reading stops at the first flaw. The lexemes in front of it are kept, because a flaw in the nesting
of groups that they show comes first.
-/

namespace Coinage

inductive GroupKind where
  | choice
  | sequence
deriving DecidableEq, Repr

def GroupKind.closer : GroupKind → Char
  | .choice => ']'
  | .sequence => ')'

inductive Lexeme where
  /-- The opening bracket of a group, at its place. -/
  | opener (kind : GroupKind) (pos : Nat)
  /-- An escaped character. -/
  | literal (c : Char)
  /-- A reference with its bounds. -/
  | reference (name : Name) (bounds : Bounds)
  /-- Any other character with its bounds. -/
  | plain (c : Char) (bounds : Bounds)
  /-- A character behind which the bounds cannot be read. -/
  | unfinished (c : Char)
deriving DecidableEq, Repr

/-- The lexemes of a text, and the place where the text ends or the reason to stop before. -/
structure Reading where
  lexemes : List Lexeme
  ending : Except Stop Nat

namespace Reading

def cons (x : Lexeme) (r : Reading) : Reading := { r with lexemes := x :: r.lexemes }

end Reading

def isGap (c : Char) : Bool := c == ' ' || c == '\t'

namespace Cursor

def skipGap (c : Cursor) : Cursor := c.skip (c.rest.takeWhile isGap).length

theorem length_skipGap_le (c : Cursor) : c.skipGap.rest.length ≤ c.rest.length :=
  length_skip_le _ c

end Cursor

def Cursor.lexemes (c : Cursor) : Reading :=
  match _h : c.skipGap.rest with
  | [] => ⟨[], .ok c.skipGap.pos⟩
  | x :: r =>
    let pos := c.skipGap.pos
    if x = '\\' then
      match r with
      | [] => ⟨[], .error (.flaw .unexpectedEnd (pos + 1))⟩
      | y :: r' => (lexemes ⟨pos + 2, r'⟩).cons (.literal y)
    else if x = '[' then (lexemes ⟨pos + 1, r⟩).cons (.opener .choice pos)
    else if x = '(' then (lexemes ⟨pos + 1, r⟩).cons (.opener .sequence pos)
    else if x = '$' then
      match _hn : Scan.identifier ⟨pos + 1, r⟩ with
      | .error e _ => ⟨[], .error e⟩
      | .ok name c₁ =>
        match _hb : Scan.bounds c₁ with
        | .error e _ => ⟨[], .error e⟩
        | .ok b c₂ => (lexemes c₂).cons (.reference name b)
    else
      match _hb : Scan.bounds ⟨pos + 1, r⟩ with
      | .error e _ => ⟨[.unfinished x], .error e⟩
      | .ok b c₁ => (lexemes c₁).cons (.plain x b)
termination_by c.rest.length
decreasing_by
  all_goals have hgap := Cursor.length_skipGap_le c
  all_goals rw [_h] at hgap
  all_goals simp only [List.length_cons] at hgap
  · omega
  · exact hgap
  · exact hgap
  · have h₁ : _ ≤ r.length := Scan.forward_identifier.ok _hn
    have h₂ := Scan.forward_bounds.ok _hb
    omega
  · have h₁ : _ ≤ r.length := Scan.forward_bounds.ok _hb
    omega

end Coinage
