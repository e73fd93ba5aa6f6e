/-!
# Tables

A table holds values under distinct keys, in the order in which the keys were first entered. A key
that is entered again gets the new value and keeps its place.
-/

namespace Coinage

abbrev Table (α β : Type) := List (α × β)

namespace Table

variable {α β : Type} [DecidableEq α]

/-- Enters a value, in place of the one that the key had. -/
def put (k : α) (v : β) : Table α β → Table α β
  | [] => [(k, v)]
  | (j, w) :: t => if j = k then (j, v) :: t else (j, w) :: put k v t

def ofEntries (es : List (α × β)) : Table α β := es.foldl (fun t e => t.put e.1 e.2) []

def get? (k : α) : Table α β → Option β
  | [] => none
  | (j, v) :: t => if j = k then some v else get? k t

def keys (t : Table α β) : List α := t.map Prod.fst

end Table

end Coinage
