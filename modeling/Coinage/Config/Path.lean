/-!
# Paths

A path is a text whose parts are separated by slashes. Its normal form has single slashes, no part
that is a lone point, and no slash at the end; two slashes at the beginning stay two. The suffix of
a path is the end of its last part from the last point on, unless that is the first or the last
character of the part. Paths and their parts are limited in length.
-/

namespace Coinage

namespace Path

def split : List Char → List (List Char)
  | [] => [[]]
  | c :: cs =>
    match c == '/', split cs with
    | true, ps => [] :: ps
    | false, [] => [[c]]
    | false, p :: ps => (c :: p) :: ps

def parts (path : List Char) : List (List Char) :=
  (split path).filter fun p => p ≠ [] && p ≠ ['.']

def root (path : List Char) : List Char :=
  match path with
  | '/' :: '/' :: '/' :: _ => ['/']
  | '/' :: '/' :: _ => ['/', '/']
  | '/' :: _ => ['/']
  | _ => []

/-- The normal form of a path; the empty path is a lone point. -/
def normal (path : List Char) : List Char :=
  match root path ++ List.intercalate ['/'] (parts path) with
  | [] => ['.']
  | p => p

def isOverlongPart (part : List Char) : Bool := 255 < (String.ofList part).utf8ByteSize

def isOverlong (path : List Char) : Bool := 4095 < (String.ofList path).utf8ByteSize

def suffixOfPart (part : List Char) : List Char :=
  let ending := (part.reverse.takeWhile (· != '.')).reverse
  let before := part.length - ending.length - 1
  if ending = [] || before = 0 || ending.length = part.length then [] else '.' :: ending

def suffix (path : List Char) : List Char :=
  match (parts path).getLast? with
  | none => []
  | some p => suffixOfPart p

end Path

end Coinage
