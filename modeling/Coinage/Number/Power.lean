/-!
# Powers of two and ten

The two bases that numbers are written in here.
-/

namespace Coinage

def twoTo (k : Nat) : Nat := Nat.pow 2 k

def tenTo (k : Nat) : Nat := Nat.pow 10 k

@[simp] theorem twoTo_zero : twoTo 0 = 1 := rfl
theorem twoTo_succ (k : Nat) : twoTo (k + 1) = twoTo k * 2 := rfl
@[simp] theorem twoTo_pos (k : Nat) : 0 < twoTo k := Nat.pow_pos (by decide)

@[simp] theorem tenTo_zero : tenTo 0 = 1 := rfl
theorem tenTo_succ (k : Nat) : tenTo (k + 1) = tenTo k * 10 := rfl
@[simp] theorem tenTo_pos (k : Nat) : 0 < tenTo k := Nat.pow_pos (by decide)

end Coinage
