import LiveTable.Table.Cursor

/-!
# Bookmarks

A bookmark saves the position of the cursor and its rank. Numbers are given in
order and never twice; the number of bookmarks at a time is limited, and the last
32-bit number is never given.
-/

namespace LiveTable.Table

/-- The number that is never given to a bookmark. -/
def lastMark : UInt32 := 0xffffffff

def createBookmark (t : Table) : Except Fault (Mark × Table) :=
  let limit := t.settings.bookmarkLimit
  if limit ≤ t.bookmarks.length ∨ t.nextMark = lastMark then .error (.exhausted limit)
  else
    let saved : Bookmark := ⟨⟨t.nextMark⟩, t.cursor, t.currentRank⟩
    let table := { t with bookmarks := t.bookmarks ++ [saved], nextMark := t.nextMark + 1 }
    .ok (saved.mark, table.note .bookmarked)

def freeBookmark (t : Table) (mark : Mark) : Except Fault Table := do
  let b ← t.bookmark mark
  return { t with bookmarks := t.bookmarks.filter (·.mark ≠ b.mark) }

theorem createBookmark_eq_error_iff (t : Table) (e : Fault) :
    t.createBookmark = .error e ↔
      e = .exhausted t.settings.bookmarkLimit ∧
        (t.settings.bookmarkLimit ≤ t.bookmarks.length ∨ t.nextMark = lastMark) := by
  unfold createBookmark
  simp only
  split
  · simp_all [eq_comm]
  · simp_all

end LiveTable.Table
