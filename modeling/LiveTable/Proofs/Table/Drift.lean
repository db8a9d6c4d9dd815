import LiveTable.Proofs.Table.Seek

/-!
# Bookmarks over time

Whatever commands come after a bookmark was made, it leads to the place where it was made for as
long as none of them drops it, and nowhere from the first one on that does. The place is that of
the same row in the same slot, so that a row which later takes a slot left by another one is never
mistaken for it. The bookmark has drifted if there are more or fewer visible rows before the place
than there were at first.
-/

namespace LiveTable.Table

variable {t : Table} {b : Bookmark} {mark : Mark} {standing : Standing}

/-- The bookmark leads to a rank, and a seek may start from there. -/
structure Resolves (t : Table) (mark : Mark) (standing : Standing) : Prop where
  resolve : t.perform (.resolve mark) = (.ok (.standing standing), t)
  seek (offset : Int) : ∃ t', t.perform (.seek (.bookmark mark) offset) =
    (.ok (.travelled ⟨t.target standing.rank offset - standing.rank, standing.drifted⟩), t')

/-- The bookmark leads nowhere: it is refused, and the table stays as it is. -/
structure Refuses (t : Table) (mark : Mark) : Prop where
  resolve : t.perform (.resolve mark) = (.error (.invalidBookmark mark), t)
  seek (offset : Int) :
    t.perform (.seek (.bookmark mark) offset) = (.error (.invalidBookmark mark), t)

/-- The slot of the row with the key in one table is its slot in the other, and holds the same row
in both. -/
def SameRow (t t' : Table) (key : Key) : Prop :=
  ∃ slot row, row.key = key ∧ t.Holds slot row ∧ t'.Holds slot row ∧
    t.store.pool.get? slot = some row ∧ t'.store.pool.get? slot = some row

theorem resolves_of_origin (h : t.origin (.bookmark mark) = .ok standing) :
    t.Resolves mark standing where
  resolve := perform_of_ok (congrArg (Except.map _) h)
  seek offset := ⟨_, perform_of_ok (congrArg (Except.map _) (seek_of_ok h offset))⟩

theorem refuses_of_origin (h : t.origin (.bookmark mark) = .error (.invalidBookmark mark)) :
    t.Refuses mark where
  resolve := perform_of_error (congrArg (Except.map _) h)
  seek offset := perform_of_error (congrArg (Except.map _) (seek_of_error h offset))

theorem Numbered.resolves (h : t.Numbered) (hs : t.Sound) (hb : b ∈ t.bookmarks) :
    t.Resolves b.mark ⟨visibleCount (b.position.behind t.entries),
      visibleCount (b.position.behind t.entries) ≠ b.rank⟩ :=
  resolves_of_origin (h.origin_eq hs (.bookmark hb))

theorem refuses_of_absent (h : ∀ b ∈ t.bookmarks, b.mark ≠ mark) : t.Refuses mark := by
  apply refuses_of_origin
  simp only [origin, resolve, bookmark_eq_error h]
  rfl

theorem Spent.refuses (h : t.Spent mark) : t.Refuses mark := refuses_of_absent h.absent

theorem Sound.exists_holds (h : t.Sound) {key : Key} (hk : HasKey t.entries key) :
    ∃ slot row, row.key = key ∧ t.Holds slot row := by
  obtain ⟨e, he, rfl⟩ := hk
  have hfind : t.store.find? e.key = some e.toRow := (h.find?_iff _ _).2 ⟨e, he, rfl, rfl⟩
  obtain ⟨slot, hslot, -⟩ := Store.find?_eq_some_iff.1 hfind
  exact ⟨slot, e.toRow, rfl, hslot, List.mem_map_of_mem he⟩

theorem Holds.get?_slot {slot : Nat} {row : Row} (h : t.Holds slot row) (hs : t.Sound) :
    t.store.pool.get? slot = some row := by
  obtain ⟨e, he, rfl⟩ := List.mem_map.1 h.row
  have hfind : t.store.find? e.key = some e.toRow := (hs.find?_iff _ _).2 ⟨e, he, rfl, rfl⟩
  obtain ⟨slot', hslot', hget⟩ := Store.find?_eq_some_iff.1 hfind
  cases h.slot.symm.trans hslot'
  exact hget

theorem perform_createBookmark_ok {t' : Table}
    (h : t.perform .createBookmark = (.ok (.mark mark), t')) :
    ⟨mark, t.cursor, t.currentRank⟩ ∈ t'.bookmarks ∧ t.SameContents t' := by
  have ht : t' = (t.perform .createBookmark).2 := (congrArg Prod.snd h).symm
  refine ⟨?_, ht ▸ t.perform_same rfl⟩
  rcases t.createBookmark_cases with ⟨fault, he⟩ | ⟨-, he⟩
  · rw [perform_of_error (c := .createBookmark) (congrArg (Except.map _) he)] at h
    cases h
  · rw [perform_of_ok (c := .createBookmark) (congrArg (Except.map _) he)] at h
    cases h
    exact List.mem_append_right _ (List.mem_singleton_self _)

/-- A bookmark leads to the place where it was made for as long as no command frees it, clears the
table, or erases the row of the place or brings it to a new one; after such a command it is refused
for ever. -/
theorem perform_createBookmark_run {t' : Table} (h : t.Reachable)
    (hc : t.perform .createBookmark = (.ok (.mark mark), t')) (commands : List Command) :
    let now := t'.run commands
    let rank := visibleCount (t.cursor.behind now.entries)
    if t'.keeps ⟨mark, t.cursor, t.currentRank⟩ commands then
      now.Resolves mark ⟨rank, rank ≠ t.currentRank⟩ ∧ t.cursor.Within now.entries ∧
        ∀ key, t.cursor = .row key → t.SameRow now key
    else now.Refuses mark := by
  intro now rank
  have ht' : (t.perform .createBookmark).2 = t' := congrArg Prod.snd hc
  have hr' : t'.Reachable := ht' ▸ h.perform .createBookmark
  have hs' := hr'.sound
  have hnow : now.Sound := hs'.run commands
  obtain ⟨hb, hsame⟩ := perform_createBookmark_ok hc
  -- kept all the way the bookmark is still in the list; dropped once its number is spent for good
  split
  case isTrue hk =>
    have hbnow : ⟨mark, t.cursor, t.currentRank⟩ ∈ now.bookmarks := hs'.mem_bookmarks_run hb hk
    refine ⟨(hr'.numbered.run hs' commands).resolves hnow hbnow, hnow.bookmarks _ hbnow, ?_⟩
    intro key hkey
    have hwithin : HasKey t.entries key := by
      have := h.sound.cursor
      rwa [hkey] at this
    obtain ⟨slot, row, rfl, hrow⟩ := h.sound.exists_holds hwithin
    have hrow' : t'.Holds slot row := ⟨hsame.store ▸ hrow.slot, hsame.entries ▸ hrow.row⟩
    have hlast : now.Holds slot row := hrow'.run hs' hkey hk
    exact ⟨slot, row, rfl, hrow, hlast, hrow.get?_slot h.sound, hlast.get?_slot hnow⟩
  case isFalse hk =>
    exact (hr'.numbered.spent_run hs' hb (Bool.eq_false_iff.2 hk)).refuses

def onSecond : Table :=
  (empty {} .bytewise).run [.put ⟨1, 1⟩ [Column.binary [1]] false,
    .put ⟨1, 2⟩ [Column.binary [2]] false, .goTo ⟨1, 2⟩]

/-- A bookmark on the second row survives when a new row takes the slot of the first one, and not
when the row itself goes and comes back. -/
theorem perform_createBookmark_run_on_second :
    let t' := (onSecond.perform .createBookmark).2
    onSecond.Reachable ∧ onSecond.perform .createBookmark = (.ok (.mark ⟨3⟩), t') ∧
      (t'.run [.erase ⟨1, 1⟩, .put ⟨1, 3⟩ [Column.binary [3]] false]).Resolves ⟨3⟩ ⟨0, true⟩ ∧
      (t'.run [.erase ⟨1, 2⟩, .put ⟨1, 2⟩ [Column.binary [2]] false]).Refuses ⟨3⟩ := by
  have ht : onSecond.Reachable := ⟨{}, .bytewise, _, rfl, rfl⟩
  have hcursor : onSecond.cursor = .row ⟨1, 2⟩ := by cbv
  have hrank : onSecond.currentRank = 1 := by cbv
  have hmark : (onSecond.perform .createBookmark).1 = .ok (.mark ⟨3⟩) := by cbv
  generalize ht' : (onSecond.perform .createBookmark).2 = t'
  have hc : onSecond.perform .createBookmark = (.ok (.mark ⟨3⟩), t') := Prod.ext hmark ht'
  have hstays := perform_createBookmark_run ht hc
    [.erase ⟨1, 1⟩, .put ⟨1, 3⟩ [Column.binary [3]] false]
  have hleaves := perform_createBookmark_run ht hc
    [.erase ⟨1, 2⟩, .put ⟨1, 2⟩ [Column.binary [2]] false]
  rw [hcursor, hrank] at hstays hleaves
  refine ⟨ht, hc, ?_, ?_⟩
  · have hk : t'.keeps ⟨⟨3⟩, .row ⟨1, 2⟩, 1⟩
        [.erase ⟨1, 1⟩, .put ⟨1, 3⟩ [Column.binary [3]] false] = true := by
      rw [← ht']
      cbv
    have hrows : visibleCount ((Position.row ⟨1, 2⟩).behind
        (t'.run [.erase ⟨1, 1⟩, .put ⟨1, 3⟩ [Column.binary [3]] false]).entries) = 0 := by
      rw [← ht']
      cbv
    rw [if_pos hk, hrows] at hstays
    exact hstays.1
  · have hk : t'.keeps ⟨⟨3⟩, .row ⟨1, 2⟩, 1⟩
        [.erase ⟨1, 2⟩, .put ⟨1, 2⟩ [Column.binary [2]] false] = false := by
      rw [← ht']
      cbv
    rw [if_neg (Bool.eq_false_iff.1 hk)] at hleaves
    exact hleaves

end LiveTable.Table
