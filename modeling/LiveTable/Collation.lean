import LiveTable.Bytes

/-!
# Collations

A text column carries a string of bytes, and the collation of a table orders two
such strings. `bytewise` is the order of a table that names no other. Nothing in
the library relies on a collation being an order: `IsPreorder` says when it is
one.
-/

namespace LiveTable

/-- How two text values compare. -/
abbrev Collation := Bytes → Bytes → Ordering

namespace Collation

/-- Byte by byte; a proper prefix comes first. -/
def bytewise : Collation := Ord.compare

def reversed : Collation := fun a b => bytewise b a

/-- A capital ASCII letter as a small one. -/
def lower (b : UInt8) : UInt8 := if 0x41 ≤ b ∧ b ≤ 0x5a then b + 0x20 else b

/-- Bytewise, with capital and small ASCII letters alike. -/
def caseless : Collation := fun a b => bytewise (a.map lower) (b.map lower)

def indifferent : Collation := fun _ _ => .eq

def bySuffix : Collation := fun a b => bytewise a.reverse b.reverse

end Collation

/-! ## Total preorders -/

/-- A comparison that is a total preorder: swapping the sides turns the answer round, and `≤` is
transitive. -/
structure IsPreorder {α : Type} (cmp : α → α → Ordering) : Prop where
  swap (a b : α) : cmp b a = (cmp a b).swap
  trans {a b c : α} : cmp a b ≠ .gt → cmp b c ≠ .gt → cmp a c ≠ .gt

end LiveTable
