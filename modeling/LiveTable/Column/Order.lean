import LiveTable.Collation
import LiveTable.Column.Basic

/-!
# The order of sort keys

Two columns compare as the kind of the left one says; where their contents are
equal, the one with fewer bytes comes first. The first pair of columns that
differs decides for the sort keys, turned round if the left column sorts
downwards. Where no pair differs the key with fewer columns comes first, whatever
the directions.
-/

namespace LiveTable

namespace Column

/-- The contents of two columns, compared as the kind of the first one says. A floating-point
column whose width is not that of a number is equal to any other. -/
def compareContent (collation : Collation) (a b : Column) : Ordering :=
  match a.kind with
  | .binary => Ord.compare a.bytes b.bytes
  | .text => collation a.bytes b.bytes
  | .float =>
    match Binary64.ofBytes? a.bytes, Binary64.ofBytes? b.bytes with
    | some x, some y => x.compare y
    | _, _ => .eq

/-- Content first, then width; the direction is left aside. -/
def compareUpward (collation : Collation) (a b : Column) : Ordering :=
  (a.compareContent collation b).then (Ord.compare a.bytes.length b.bytes.length)

/-- Content, width and the direction of the left column. -/
def compare (collation : Collation) (a b : Column) : Ordering :=
  if a.descending then (a.compareUpward collation b).swap else a.compareUpward collation b

end Column

namespace SortKey

/-- Lists in lexicographic order under a comparison of their elements. -/
def lexicographic (cmp : Column → Column → Ordering) : SortKey → SortKey → Ordering
  | [], [] => .eq
  | [], _ :: _ => .lt
  | _ :: _, [] => .gt
  | a :: as, b :: bs => (cmp a b).then (lexicographic cmp as bs)

def compare (collation : Collation) : SortKey → SortKey → Ordering :=
  lexicographic (Column.compare collation)

/-- The order of rows with every column read upwards. -/
def compareUpward (collation : Collation) : SortKey → SortKey → Ordering :=
  lexicographic (Column.compareUpward collation)

/-- The order of rows under their first `n` columns only. -/
def comparePrefix (collation : Collation) (n : Nat) (a b : SortKey) : Ordering :=
  compare collation (a.take n) (b.take n)

theorem lexicographic_self {cmp : Column → Column → Ordering} (a : SortKey)
    (h : ∀ c ∈ a, cmp c c = .eq) : lexicographic cmp a a = .eq := by
  induction a with
  | nil => rfl
  | cons c cs ih =>
    simp [lexicographic, h c List.mem_cons_self,
      ih fun d hd => h d (List.mem_cons_of_mem _ hd)]

theorem comparePrefix_of_length_le {collation : Collation} {n : Nat} {a b : SortKey}
    (ha : a.length ≤ n) (hb : b.length ≤ n) :
    comparePrefix collation n a b = compare collation a b := by
  rw [comparePrefix, List.take_of_length_le ha, List.take_of_length_le hb]

end SortKey

end LiveTable
