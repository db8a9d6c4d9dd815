import Mathlib
import LiveTable.Proofs.Linked.Command

/-!
# Linked tables stay intact

Whatever the collation is, be it an order or not, and whatever commands there were, the links, the
numbers and the balance of a linked table are right, and so are its index, its cursor and its
bookmarks (`exists_intact_run`). All the integrity check can report is the first pair of neighbours
that are out of order.
-/

namespace LiveTable

namespace Nodes

variable {g : Nodes} {parent : Nat} {s : Side} {o : Option Nat} {t : Tree} {slots : List Nat}

theorem Laid.entries_eq (h : g.Laid parent s o t slots) :
    slots.map (fun slot => (g slot).map (·.cell.toEntry)) = t.toList.map some := by
  induction h with
  | nil => rfl
  | node get holds left right ihl ihr =>
    rw [List.map_append, List.map_cons, ihl, ihr, get, Option.map_some, holds.cell,
      Tree.toList_node, List.map_append, List.map_cons]

end Nodes

namespace LinkedTable

/-- What callers can rely on in a linked table, whatever its collation and its sort keys. -/
structure Intact (w : LinkedTable) (tree : Tree) (all : List Nat) : Prop where
  /-- The nodes are linked to their children and to their parents as the cells of the tree are, up
  to the ground, and have the same rows and numbers stored in them. -/
  grown : w.nodes.Grown tree all
  /-- The sides of every cell differ in height by one at most. -/
  balanced : tree.Balanced
  /-- Every cell stores the height and the number of visible rows of its subtree. -/
  counted : tree.Counted
  entries : all.map (fun slot => (w.nodes slot).map (·.cell.toEntry)) = tree.toList.map some
  visible : w.visible = some (tree.toList.filter (·.hidden = false)).length
  /-- No key is borne by two rows. -/
  keys : (tree.toList.map (·.key)).Nodup
  /-- The index has the keys of the rows and no others, and leads to the row with the key. -/
  indexed (key : Key) (slot : Nat) :
    w.index[key]? = some slot ↔ slot ∈ all ∧ (w.nodes slot).map (·.cell.key) = some key
  index_size : w.index.size = tree.toList.length
  size : w.size = tree.toList.length
  /-- Rows that are gone have left no node behind. -/
  occupied (slot : Nat) : (w.nodes slot).isSome ↔ slot ∈ 0 :: all
  /-- The cursor is on a row that is there, on the ground or past the end. -/
  cursor (slot : Nat) : w.cursor = some slot → slot ∈ 0 :: all
  /-- So are the bookmarks. -/
  bookmarks (b : SavedSlot) (slot : Nat) :
    b ∈ w.bookmarks → b.position = some slot → slot ∈ 0 :: all
  /-- The integrity check finds the first neighbours out of order and nothing else. -/
  verified :
    (Ascending w.compare tree.toList ∧ w.verify.run = some (.ok ())) ∨
    ∃ xs a b ys, tree.toList = xs ++ a :: b :: ys ∧ Ascending w.compare (xs ++ [a]) ∧
      w.compare a.columns b.columns = .gt ∧
      w.verify.run =
        some (.error (.corrupted ("row " ++ a.key.text ++ " sorts after " ++ b.key.text)))

namespace Represents

variable {w : LinkedTable} {t : Table} {all : List Nat}

theorem indexed_iff (h : w.Represents t all) (key : Key) (slot : Nat) :
    w.index[key]? = some slot ↔ slot ∈ all ∧ (w.nodes slot).map (·.cell.key) = some key := by
  constructor
  · intro hi
    rcases h.key_cases key with ⟨-, hn⟩ | ⟨f, slot', -, rfl, -, hi', hat⟩
    · cases hn.symm.trans hi
    · cases hi'.symm.trans hi
      obtain ⟨hm, n, _, _, get, holds, -, -⟩ := hat.exists_node
      refine ⟨hm, ?_⟩
      rw [get, Option.map_some, holds.cell]
      rfl
  · rintro ⟨hm, hk⟩
    obtain ⟨n, get, rfl⟩ := Option.map_eq_some_iff.1 hk
    exact h.housed.indexed slot hm n get

theorem slotOf_mem (h : w.Represents t all) {p : Position} {slot : Nat}
    (hs : w.slotOf p = some slot) : slot ∈ 0 :: all := by
  cases p with
  | beforeFirst =>
    cases hs
    exact List.mem_cons_self
  | row key => exact List.mem_cons_of_mem 0 ((h.indexed_iff key slot).1 hs).1
  | pastEnd => cases hs

theorem verify_cases (h : w.Represents t all) :
    (Ascending w.compare t.entries ∧ w.verify.run = some (.ok ())) ∨
    ∃ xs a b ys, t.entries = xs ++ a :: b :: ys ∧ Ascending w.compare (xs ++ [a]) ∧
      w.compare a.columns b.columns = .gt ∧
      w.verify.run =
        some (.error (.corrupted ("row " ++ a.key.text ++ " sorts after " ++ b.key.text))) := by
  rw [h.compare, h.verify]
  rcases t.verify_cases with ⟨ha, hv⟩ | ⟨xs, a, b, ys, he, ha, hgt, hv⟩
  · exact .inl ⟨ha, congrArg some hv⟩
  · exact .inr ⟨xs, a, b, ys, he, ha, hgt, congrArg some hv⟩

theorem intact (h : w.Represents t all) : w.Intact t.tree all where
  grown := h.grown
  balanced := h.sound.tree.balanced
  counted := h.sound.tree.counted
  entries := by
    obtain ⟨n, -, -, -, -, hl⟩ := h.grown.laid
    exact hl.entries_eq
  visible := by
    rw [h.visible, h.sound.visible_eq, visibleCount, List.countP_eq_length_filter]
    refine congrArg (some ∘ List.length) (List.filter_congr fun e _ => ?_)
    cases he : e.hidden <;> simp [Entry.isVisible, he]
  keys := h.sound.distinct
  indexed := h.indexed_iff
  index_size := by
    rw [h.index_eq]
    exact h.sound.store.size_eq.trans h.sound.size_eq
  size := h.size.trans h.sound.size_eq
  occupied slot := ⟨h.housed.occupied slot, h.grown.live⟩
  cursor slot hc := h.slotOf_mem (h.cursor.symm.trans hc)
  bookmarks b slot hb hp := by
    rw [h.bookmarks] at hb
    obtain ⟨b', -, rfl⟩ := List.mem_map.1 hb
    exact h.slotOf_mem hp
  verified := h.verify_cases

end Represents

/-- Every run of commands on a table without rows comes to a linked table that is intact and stands
for the table that the run leads to. -/
theorem exists_intact_run (settings : Settings) (collation : Collation)
    (commands : List Command) :
    let t := (Table.empty settings collation).run commands
    ∃ w all, (empty settings collation).run commands = some w ∧ w.Represents t all ∧
      w.Intact t.tree all := by
  obtain ⟨w, hw, all, h⟩ := exists_run settings collation commands
  exact ⟨w, all, hw, h, h.intact⟩

/-- Sort keys that do not agree on a direction. The root goes, with a bookmark, and its slot is taken
again; a row is brought behind all others, and the cursor leaves the row that is hidden. -/
def crossing : List Command :=
  [.put ⟨1, 0⟩ [(Column.binary [1]).down] false, .put ⟨2, 0⟩ [Column.binary [2]] true,
    .put ⟨3, 0⟩ [Column.binary [4]] false, .put ⟨4, 0⟩ [Column.binary [3]] false,
    .goTo ⟨2, 0⟩, .createBookmark, .erase ⟨2, 0⟩, .createBookmark,
    .put ⟨5, 0⟩ [Column.binary [5], Column.binary [0]] false,
    .setColumn ⟨4, 0⟩ 0 (Column.binary [5]), .goTo ⟨5, 0⟩, .collapse ⟨4, 0⟩]

/-- The first row sorts after the second one. -/
theorem exists_intact_crossing :
    ∃ w all, (empty {} .bytewise).run crossing = some w ∧
      w.Represents ((Table.empty {} .bytewise).run crossing) all ∧
      w.Intact ((Table.empty {} .bytewise).run crossing).tree all ∧
      w.verify.run = some (.error (Flaw.misordered ⟨1, 0⟩ ⟨3, 0⟩).fault) ∧
      w.cursor = none := by
  obtain ⟨w, all, hw, h, hi⟩ := exists_intact_run {} .bytewise crossing
  have hpair : misordered? ((Table.empty {} .bytewise).run crossing).compare
      ((Table.empty {} .bytewise).run crossing).entries = some (⟨1, 0⟩, ⟨3, 0⟩) := by cbv
  have hcursor : ((Table.empty {} .bytewise).run crossing).cursor = .pastEnd := by cbv
  refine ⟨w, all, hw, h, hi, ?_, ?_⟩
  · rw [h.verify, Table.verify, hpair]
  · rw [h.cursor, hcursor]
    rfl

end LinkedTable

end LiveTable
