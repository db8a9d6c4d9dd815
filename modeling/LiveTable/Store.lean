import LiveTable.Pool
import LiveTable.Row
import Std.Data.HashMap

/-!
# The store of rows

The rows of a table by key: each row has a slot in a pool, and an index leads
from its key to its slot. The store says which rows there are and where to search
for them; the order of the rows is kept elsewhere.
-/

namespace LiveTable

structure Store where
  index : Std.HashMap Key Nat
  pool : Pool Row

namespace Store

def empty : Store := ⟨∅, .withGround .ground⟩

def find? (s : Store) (key : Key) : Option Row := s.index[key]?.bind s.pool.get?

def contains (s : Store) (key : Key) : Bool := s.index.contains key

def size (s : Store) : Nat := s.pool.size

/-- Adds a row whose key is not in the store. -/
def insert (s : Store) (r : Row) : Store :=
  let (slot, pool) := s.pool.alloc r
  ⟨s.index.insert r.key slot, pool⟩

def erase (s : Store) (key : Key) : Store :=
  match s.index[key]? with
  | none => s
  | some slot =>
    match s.pool.release? slot with
    | none => ⟨s.index.erase key, s.pool⟩
    | some (_, pool) => ⟨s.index.erase key, pool⟩

def clear (s : Store) : Store := ⟨∅, s.pool.clear⟩

end Store

end LiveTable
