/-!
Dicts: finite maps whose keys are integers, strings or truth values. The
entries are kept in the order of their keys, so that two dicts with the same
bindings are the same list. A key carries its type, and `4` and `"4"` are
different keys.
-/

namespace Monkey

inductive Key where
  | int (n : Int64)
  | str (text : String)
  | bool (b : Bool)
  deriving DecidableEq

/-- Integers by value, then strings by their characters' code points, then
`false` and `true`. -/
def Key.compare : Key → Key → Ordering
  | .int m, .int n => Ord.compare m.toInt n.toInt
  | .int _, _ => .lt
  | .str _, .int _ => .gt
  | .str s, .str t => Ord.compare s t
  | .str _, .bool _ => .lt
  | .bool b, .bool c => Ord.compare b c
  | .bool _, _ => .gt

namespace Dict

variable {α : Type}

/-- Binds a key, in place of an earlier binding of the same key. The entries
stay in order if they were. -/
def insert (key : Key) (value : α) : List (Key × α) → List (Key × α)
  | [] => [(key, value)]
  | (k, v) :: entries =>
    match key.compare k with
    | .lt => (key, value) :: (k, v) :: entries
    | .eq => (key, value) :: entries
    | .gt => (k, v) :: insert key value entries

/-- The dict of a list of pairs, of which later ones win over earlier ones
with the same key. -/
def ofPairs (pairs : List (Key × α)) : List (Key × α) :=
  pairs.foldl (fun entries (key, value) => insert key value entries) []

def get? (entries : List (Key × α)) (key : Key) : Option α :=
  entries.lookup key

end Dict

end Monkey
