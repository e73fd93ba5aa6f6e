import Coinage.Chance.Draws

/-!
# The Mersenne twister

The 32-bit Mersenne twister MT19937, seeded by an integer: the words of its absolute value, lowest
first, are the key of the standard array seeding. A fraction takes the upper 27 and 26 bits of two
outputs. A choice among `n` takes as many upper bits of an output as `n` has, again and again until
they make a number below `n`.
-/

namespace Coinage

/-- The state of the generator: its words, and how many of them have been given out. -/
structure Twister where
  words : Vector UInt32 624
  used : Nat

namespace Twister

def expand : (count : Nat) → (i : Nat) → (last : UInt32) → List UInt32
  | 0, _, _ => []
  | count + 1, i, last =>
    let w := (last ^^^ (last >>> 30)) * (1812433253 : UInt32) + UInt32.ofNat i
    w :: expand count (i + 1) w

def ofWord (seed : UInt32) : Vector UInt32 624 :=
  let ws := seed :: expand 623 1 seed
  Vector.ofFn fun i => ws.getD i.val 0

/-- The 32-bit words of a number, lowest first; zero has one. -/
def keyOf (n : Nat) : List UInt32 :=
  if n < UInt32.size then [UInt32.ofNat n]
  else UInt32.ofNat (n % UInt32.size) :: keyOf (n / UInt32.size)
termination_by n
decreasing_by
  simp only [UInt32.size] at *
  omega

def word (ws : Vector UInt32 624) (i : Nat) : UInt32 := ws.get ⟨i % 624, Nat.mod_lt _ (by decide)⟩

def setWord (ws : Vector UInt32 624) (i : Nat) (w : UInt32) : Vector UInt32 624 :=
  ws.set (i % 624) w (Nat.mod_lt _ (by decide))

/-- After the last place the first one takes over its word, and the place behind it follows. -/
def wrap (ws : Vector UInt32 624) (i : Nat) : Vector UInt32 624 × Nat :=
  if 624 ≤ i then (setWord ws 0 (word ws 623), 1) else (ws, i)

def mixKey (key : Array UInt32) : (count : Nat) → Vector UInt32 624 → (i j : Nat) →
    Vector UInt32 624 × Nat
  | 0, ws, i, _ => (ws, i)
  | count + 1, ws, i, j =>
    let p := word ws (i + 623)
    let w := (word ws i ^^^ ((p ^^^ (p >>> 30)) * 1664525)) + key.getD j 0 + UInt32.ofNat j
    let (ws, i) := wrap (setWord ws i w) (i + 1)
    mixKey key count ws i (if key.size ≤ j + 1 then 0 else j + 1)

def stir : (count : Nat) → Vector UInt32 624 → (i : Nat) → Vector UInt32 624
  | 0, ws, _ => ws
  | count + 1, ws, i =>
    let p := word ws (i + 623)
    let w := (word ws i ^^^ ((p ^^^ (p >>> 30)) * 1566083941)) - UInt32.ofNat i
    let (ws, i) := wrap (setWord ws i w) (i + 1)
    stir count ws i

def ofKey (key : Array UInt32) : Vector UInt32 624 :=
  let (ws, i) := mixKey key (max 624 key.size) (ofWord 19650218) 1 0
  setWord (stir 623 ws i) 0 0x80000000

/-- The generator for an integer, whose sign does not matter. -/
def ofSeed (seed : Int) : Twister := ⟨ofKey (keyOf seed.natAbs).toArray, 624⟩

def renew : (count : Nat) → Vector UInt32 624 → (i : Nat) → Vector UInt32 624
  | 0, ws, _ => ws
  | count + 1, ws, i =>
    let y := (word ws i &&& 0x80000000) ||| (word ws (i + 1) &&& 0x7fffffff)
    let w := word ws (i + 397) ^^^ (y >>> 1) ^^^ (if y &&& 1 = 0 then 0 else 0x9908b0df)
    renew count (setWord ws i w) (i + 1)

def temper (y : UInt32) : UInt32 :=
  let y := y ^^^ (y >>> 11)
  let y := y ^^^ ((y <<< 7) &&& 0x9d2c5680)
  let y := y ^^^ ((y <<< 15) &&& 0xefc60000)
  y ^^^ (y >>> 18)

def next (t : Twister) : UInt32 × Twister :=
  if t.used < 624 then (temper (word t.words t.used), { t with used := t.used + 1 })
  else
    let ws := renew 624 t.words 0
    (temper (word ws 0), ⟨ws, 1⟩)

def fraction (t : Twister) : Nat × Twister :=
  let (a, t) := t.next
  let (b, t) := t.next
  ((a >>> 5).toNat * twoTo 26 + (b >>> 6).toNat, t)

def upperBits (bits : Nat) (t : Twister) : Nat × Twister :=
  let (w, t) := t.next
  (w.toNat / twoTo (32 - bits), t)

def tryBelow (n bits : Nat) : (tries : Nat) → Twister → Nat × Twister
  | 0, t => (0, t)
  | tries + 1, t =>
    let (k, t) := t.upperBits bits
    if k < n then (k, t) else tryBelow n bits tries t

/-- A number below `n`. A try succeeds in at least half of all cases; after 4096 failures the answer
is zero. -/
def below (n : Nat) (t : Twister) : Nat × Twister :=
  tryBelow n (if n = 0 then 0 else n.log2 + 1) 4096 t

instance : Draws Twister := ⟨fraction, below⟩

theorem tryBelow_lt {n : Nat} (bits tries : Nat) (t : Twister) (h : 0 < n) :
    (tryBelow n bits tries t).1 < n := by
  induction tries generalizing t with
  | zero => exact h
  | succ tries ih =>
    simp only [tryBelow]
    split
    · assumption
    · exact ih _

theorem fraction_lt (t : Twister) : (fraction t).1 < twoTo 53 := by
  have ha := t.next.1.toNat_lt
  have hb := t.next.2.next.1.toNat_lt
  have h₁ : (t.next.1 >>> 5).toNat = t.next.1.toNat / 32 :=
    (UInt32.toNat_shiftRight _ _).trans (Nat.shiftRight_eq_div_pow _ 5)
  have h₂ : (t.next.2.next.1 >>> 6).toNat = t.next.2.next.1.toNat / 64 :=
    (UInt32.toNat_shiftRight _ _).trans (Nat.shiftRight_eq_div_pow _ 6)
  have h₂₆ : twoTo 26 = 67108864 := rfl
  have h₅₃ : twoTo 53 = 9007199254740992 := rfl
  simp only [fraction, h₁, h₂, h₂₆, h₅₃]
  omega

instance : LawfulDraws Twister := ⟨fraction_lt, fun _ t h => tryBelow_lt _ _ t h⟩

end Twister

end Coinage
