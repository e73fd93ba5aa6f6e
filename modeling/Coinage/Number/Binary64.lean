import Coinage.Number.Rounding

/-!
# Binary64 numbers

The finite numbers of binary64 are `± m · 2^e` with `m < 2⁵³` and `-1074 ≤ e ≤ 971`; beyond them are
two infinities and one value that is no number. Ratios, products and sums are computed exactly and
then rounded to the nearest number, halfway to the even one.
-/

namespace Coinage

inductive Binary64 where
  | finite (negative : Bool) (m : Nat) (e : Int)
  | infinite (negative : Bool)
  | notANumber
deriving DecidableEq, Repr

namespace Binary64

def zero : Binary64 := .finite false 0 (-1074)

def isZero : Binary64 → Bool
  | .finite _ m _ => m = 0
  | _ => false

/-- The number `± a · 2^k / d`, rounded at the exponent `e`. -/
def roundAt (negative : Bool) (a d : Nat) (e : Int) : Binary64 :=
  let m := nearest (a * twoTo (-e).toNat) (d * twoTo e.toNat)
  let (m, e) := if m = twoTo 53 then (twoTo 52, e + 1) else (m, e)
  if 971 < e then .infinite negative else .finite negative m e

/-- The least exponent at which `a / d` has at most 53 binary digits before the point. -/
def exponentOf (a d : Nat) : Int :=
  let guess : Int := (a.log2 : Int) - d.log2 - 53
  let tight := a * twoTo (-guess).toNat < d * twoTo guess.toNat * twoTo 53
  max (if tight then guess else guess + 1) (-1074)

/-- The number nearest to `± a / d`. -/
def ofRatio (negative : Bool) (a d : Nat) : Binary64 :=
  if a = 0 || d = 0 then .finite negative 0 (-1074) else roundAt negative a d (exponentOf a d)

/-- The number nearest to `± n · 10^k`. Where `n · 10^k` is beyond all numbers or nearer to zero
than to any other, the power is not worked out. -/
def ofDecimal (negative : Bool) (n : Nat) (k : Int) : Binary64 :=
  if n = 0 then .finite negative 0 (-1074)
  else if 400 < k then .infinite negative
  else if k + n.log2 < -1200 then .finite negative 0 (-1074)
  else ofRatio negative (n * tenTo k.toNat) (tenTo (-k).toNat)

def ofScaled (negative : Bool) (a : Nat) (e : Int) : Binary64 :=
  ofRatio negative (a * twoTo e.toNat) (twoTo (-e).toNat)

/-- The number nearest to a whole number, unless that is beyond all of them. -/
def ofNat? (n : Nat) : Option Binary64 :=
  match ofRatio false n 1 with
  | .finite s m e => some (.finite s m e)
  | _ => none

/-- The sum of two numbers. Opposite numbers cancel to a zero without a minus sign. -/
def add : Binary64 → Binary64 → Binary64
  | .finite s m e, .finite t n f =>
    let low := min e f
    let a := m * twoTo (e - low).toNat
    let b := n * twoTo (f - low).toNat
    if s = t then ofScaled s (a + b) low
    else if a = b then zero
    else if b < a then ofScaled s (a - b) low
    else ofScaled t (b - a) low
  | .infinite s, .infinite t => if s = t then .infinite s else .notANumber
  | .infinite s, .finite _ _ _ => .infinite s
  | .finite _ _ _, .infinite t => .infinite t
  | _, _ => .notANumber

def mul : Binary64 → Binary64 → Binary64
  | .finite s m e, .finite t n f => ofScaled (s != t) (m * n) (e + f)
  | .infinite s, .infinite t => .infinite (s != t)
  | .infinite s, .finite t n _ => if n = 0 then .notANumber else .infinite (s != t)
  | .finite s m _, .infinite t => if m = 0 then .notANumber else .infinite (s != t)
  | _, _ => .notANumber

def neg : Binary64 → Binary64
  | .finite s m e => .finite (!s) m e
  | .infinite s => .infinite (!s)
  | .notANumber => .notANumber

end Binary64

end Coinage
