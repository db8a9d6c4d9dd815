import LiveTable.Table.Basic

/-!
# The bytes that a table takes

A table takes the bytes of its parts, of as many as there is room for, and those that the columns
of its rows hold. How large a part is and how much room is kept is for those to say who lay the
table out; both are given here.
-/

namespace LiveTable

/-- How many bytes a part of each kind takes. -/
structure PartSizes where
  table : Nat
  slot : Nat
  vacancy : Nat
  column : Nat
  indexed : Nat
  bookmark : Nat

/-- For how many parts of each kind there is room. -/
structure Room where
  slots : Nat
  vacancies : Nat
  columns : Row → Nat
  indexed : Nat
  bookmarks : Nat

variable (sizes : PartSizes) (room : Room)

/-- What a row takes outside of its slot. -/
def Row.footprint (r : Row) : Nat := room.columns r * sizes.column + r.columnBytes

def Store.footprint (s : Store) : Nat :=
  room.slots * sizes.slot + room.vacancies * sizes.vacancy +
    s.pool.toList.foldr (·.footprint sizes room + ·) 0 + room.indexed * sizes.indexed

def Table.footprint (t : Table) : Nat :=
  sizes.table + t.store.footprint sizes room + room.bookmarks * sizes.bookmark

end LiveTable
