/-!
# Tallies

A table counts what happens to it. The counters are 64 bits wide and wrap around;
a tally that is not enabled stays as it is.
-/

namespace LiveTable

structure Tally where
  enabled : Bool
  added : UInt64
  modified : UInt64
  unchanged : UInt64
  deleted : UInt64
  rotations : UInt64
  seeks : UInt64
  hidden : UInt64
  unhidden : UInt64
  bookmarks : UInt64
  deriving DecidableEq, Inhabited

namespace Tally

inductive Event where
  | added
  | modified
  | unchanged
  | deleted
  | rotated (times : Nat)
  | sought
  | hidden (rows : Nat)
  | unhidden (rows : Nat)
  | bookmarked
  deriving DecidableEq

def zero (enabled : Bool) : Tally := ⟨enabled, 0, 0, 0, 0, 0, 0, 0, 0, 0⟩

/-- The tally one event later, counting is taken to be enabled. -/
def count (t : Tally) : Event → Tally
  | .added => { t with added := t.added + 1 }
  | .modified => { t with modified := t.modified + 1 }
  | .unchanged => { t with unchanged := t.unchanged + 1 }
  | .deleted => { t with deleted := t.deleted + 1 }
  | .rotated n => { t with rotations := t.rotations + UInt64.ofNat n }
  | .sought => { t with seeks := t.seeks + 1 }
  | .hidden n => { t with hidden := t.hidden + UInt64.ofNat n }
  | .unhidden n => { t with unhidden := t.unhidden + UInt64.ofNat n }
  | .bookmarked => { t with bookmarks := t.bookmarks + 1 }

def note (t : Tally) (e : Event) : Tally := if t.enabled then t.count e else t

def reset (t : Tally) : Tally := zero t.enabled

def text (t : Tally) : String :=
  let field (name : String) (n : UInt64) := name ++ ": " ++ n.toNat.repr
  "TableStats \x7b " ++ ", ".intercalate
    [field "added" t.added, field "modified" t.modified, field "noop" t.unchanged,
      field "deleted" t.deleted, field "rotations" t.rotations, field "seeks" t.seeks,
      field "hidden" t.hidden, field "unhidden" t.unhidden, field "bookmarks" t.bookmarks] ++
    " \x7d"

@[simp] theorem enabled_note (t : Tally) (e : Event) : (t.note e).enabled = t.enabled := by
  unfold note
  split
  · cases e <;> rfl
  · rfl

theorem note_of_not_enabled {t : Tally} (h : t.enabled = false) (e : Event) : t.note e = t := by
  simp [note, h]

end Tally

end LiveTable
