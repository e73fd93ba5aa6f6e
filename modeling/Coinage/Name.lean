import Coinage.Text.Digit
import Coinage.Text.Letter

/-!
# Names

The names by which patterns refer to productions: identifiers, which begin with a letter or an
underscore and go on with letters, digits and underscores, of any script.
-/

namespace Coinage

abbrev Name := List Char

def isNameStart (c : Char) : Bool := isLetter c || c == '_'

def isNameChar (c : Char) : Bool := isLetter c || isDigit c || c == '_'

def isIdentifier : Name → Bool
  | [] => false
  | c :: cs => isNameStart c && cs.all isNameChar

theorem isNameChar_of_isNameStart {c : Char} (h : isNameStart c = true) : isNameChar c = true := by
  simp only [isNameStart, isNameChar, Bool.or_eq_true] at h ⊢
  exact h.imp_left Or.inl

theorem isNameChar_of_mem {name : Name} {c : Char} (h : isIdentifier name = true) (hc : c ∈ name) :
    isNameChar c = true := by
  cases name with
  | nil => cases hc
  | cons x xs =>
    obtain ⟨hx, hxs⟩ := Bool.and_eq_true_iff.mp h
    rcases List.mem_cons.mp hc with rfl | hc
    · exact isNameChar_of_isNameStart hx
    · exact List.all_eq_true.mp hxs c hc

end Coinage
