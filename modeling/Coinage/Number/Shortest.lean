import Coinage.Number.Binary64
import Coinage.Text.Decimal

/-!
# Shortest decimals

A binary64 number is written with the fewest digits that round back to it, and of those with the
digits that are nearest to it. Numbers from 10⁻⁴ up to 10¹⁶ are written out with a point, others
with an exponent of at least two digits.
-/

namespace Coinage

namespace Shortest

structure Layout where
  /-- The first place of the point, counted from the first digit, that is written with an
  exponent. -/
  above : Int
  /-- The last place of the point that is written with an exponent. -/
  below : Int
  /-- The least number of digits of an exponent. -/
  exponentDigits : Nat

/-- Numbers below 10⁻⁴ and from 10¹⁶ on have an exponent, of two digits at least. -/
def layout : Layout := ⟨17, -4, 2⟩

/-- The decimal `n · 10^k` rounds back to `m · 2^e`: it lies between the halfway points to the
neighbours, which count if `m` is even. -/
def roundsBack (m : Nat) (e : Int) (n : Nat) (k : Int) : Bool :=
  -- Both sides are multiplied by four, and by the powers with negative exponents.
  let two := twoTo e.toNat
  let low := if m = twoTo 52 && -1074 < e then 4 * m - 1 else 4 * m - 2
  let value := 4 * n * tenTo k.toNat * twoTo (-e).toNat
  let ten := tenTo (-k).toNat
  let least := low * two * ten
  let greatest := (4 * m + 2) * two * ten
  if m % 2 = 0 then least ≤ value && value ≤ greatest else least < value && value < greatest

/-- Of the two neighbours of `m · 2^e` in the unit `10^k`, the one that rounds back, or the nearer
of both if both do. -/
def inUnit (m : Nat) (e k : Int) : Option Nat :=
  let a := m * twoTo e.toNat * tenTo (-k).toNat
  let d := twoTo (-e).toNat * tenTo k.toNat
  let n := a / d
  match roundsBack m e n k, roundsBack m e (n + 1) k with
  | true, true => some (nearest a d)
  | true, false => some n
  | false, true => some (n + 1)
  | false, false => none

/-- The first unit from `10^k` downwards in which a whole number rounds back to `m · 2^e`, in at
most `tries` tries. -/
def search (m : Nat) (e : Int) : (tries : Nat) → (k : Int) → Nat × Int
  | 0, k => (0, k)
  | tries + 1, k =>
    match inUnit m e k with
    | some n => (n, k)
    | none => search m e tries (k - 1)

def strip : (tries : Nat) → Nat → Int → Nat × Int
  | 0, n, k => (n, k)
  | tries + 1, n, k => if n % 10 = 0 then strip tries (n / 10) (k + 1) else (n, k)

/-- The digits of `m · 2^e` and the place of the point, counted from the first digit. -/
def digits (m : Nat) (e : Int) : List Char × Int :=
  let top : Int := ((m.log2 : Int) + e) * 30103 / 100000 + 1
  let (n, k) := search m e 22 top
  let (n, k) := strip 25 n k
  let ds := decimal n
  (ds, ds.length + k)

def layOut (l : Layout) (ds : List Char) (point : Int) : List Char :=
  if l.above ≤ point || point ≤ l.below then
    let fraction := if ds.length ≤ 1 then [] else '.' :: ds.drop 1
    let x := point - 1
    let power := decimal x.natAbs
    let zeros := List.replicate (l.exponentDigits - power.length) '0'
    ds.take 1 ++ fraction ++ ['e', if x < 0 then '-' else '+'] ++ zeros ++ power
  else if point ≤ 0 then
    "0.".toList ++ List.replicate (-point).toNat '0' ++ ds
  else if ds.length ≤ point then
    ds ++ List.replicate (point.toNat - ds.length) '0' ++ ".0".toList
  else ds.take point.toNat ++ '.' :: ds.drop point.toNat

end Shortest

def Binary64.shortest : Binary64 → List Char
  | .notANumber => "nan".toList
  | .infinite s => if s then "-inf".toList else "inf".toList
  | .finite s m e =>
    let sign := if s then ['-'] else []
    if m = 0 then sign ++ "0.0".toList
    else
      let (ds, point) := Shortest.digits m e
      sign ++ Shortest.layOut Shortest.layout ds point

end Coinage
