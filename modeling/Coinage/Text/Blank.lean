/-!
# White space

The white space of Unicode, which is cut off at the ends of lines and numerals, and the narrower
set of the first 128 code points.
-/

namespace Coinage

/-- Tab, line feed, vertical tab, form feed, carriage return and the plain space. -/
def isAsciiBlank (c : Char) : Bool := (9 ≤ c.toNat && c.toNat ≤ 13) || c == ' '

/-- White space of any script, the four information separators included. -/
def isBlank (c : Char) : Bool :=
  let n := c.toNat
  isAsciiBlank c || (28 ≤ n && n ≤ 31) || n == 0x85 || n == 0xa0 || n == 0x1680
    || (0x2000 ≤ n && n ≤ 0x200a) || n == 0x2028 || n == 0x2029 || n == 0x202f || n == 0x205f
    || n == 0x3000

def trimRight (p : Char → Bool) (cs : List Char) : List Char := (cs.reverse.dropWhile p).reverse

def trim (p : Char → Bool) (cs : List Char) : List Char := trimRight p (cs.dropWhile p)

end Coinage
