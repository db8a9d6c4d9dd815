import LiveTable.Proofs.Table.Perform

/-!
# Reachable tables are sound

A new table is sound and every command keeps it so, under any collation and whatever sort keys
the rows have (`Reachable.sound`).
-/

namespace LiveTable

namespace Table

variable {t : Table} {c : Command}

/-! ## One command -/

theorem Sound.of_same {t' : Table} (h : t.Sound) (hs : t.SameContents t')
    (hc : t'.cursor.Within t.entries) (hb : ∀ b ∈ t'.bookmarks, b.position.Within t.entries) :
    t'.Sound where
  tree := hs.tree ▸ h.tree
  store := hs.store ▸ h.store
  distinct := hs.entries ▸ h.distinct
  find?_iff key row := by
    rw [hs.store, hs.entries]
    exact h.find?_iff key row
  size_eq := by
    rw [hs.entries, size, hs.store]
    exact h.size_eq
  cursor := hs.entries ▸ hc
  bookmarks := hs.entries ▸ hb

theorem Sound.perform_put (h : t.Sound) (key : Key) (columns : SortKey) (hidden : Bool) :
    (t.perform (.put key columns hidden)).2.Sound := by
  rcases t.perform_put key columns hidden with ⟨-, he⟩ | ⟨-, hf, he⟩ | ⟨f, -, hf, -, he⟩ |
    ⟨f, -, hf, -, he⟩
  all_goals rw [he]
  · exact h
  · exact (h.attach key columns hidden (h.focus?_eq_none_iff.1 hf)).note _
  · exact h.note _
  · obtain ⟨hs, rfl⟩ := h.splits_of_focus? hf
    exact (h.resort hs columns hidden).note _

theorem Sound.of_put (h : t.Sound) {key : Key} {columns : SortKey} {hidden : Bool} {p : Placement}
    {t' : Table} (hp : t.put key columns hidden = .ok (p, t')) : t'.Sound := by
  have hperform : (t.perform (.put key columns hidden)).2 = t' := perform_map_ok rfl hp rfl
  exact hperform ▸ h.perform_put key columns hidden

/-- Where a command that does not edit leaves the cursor. -/
theorem Sound.cursor_perform (h : t.Sound) (hc : c.edits = false) :
    (t.perform c).2.cursor.Within t.entries := by
  cases c with
  | put | erase | setColumn | clear | collapse | expand => cases hc
  | next => exact h.after_within h.cursor
  | prev => exact h.before_within h.cursor
  | lowerBound probe => exact t.lowerBound_within probe
  | seek origin offset =>
    rcases t.perform_seek origin offset with he | ⟨p, he, ⟨rfl, -⟩ | ⟨rank, rfl⟩⟩
    all_goals rw [he]
    · exact h.cursor
    · trivial
    · exact h.select_within rank
  | goTo key =>
    rcases t.perform_goTo key with he | ⟨f, hf, he⟩
    all_goals rw [he]
    · exact h.cursor
    · obtain ⟨hs, -⟩ := h.splits_of_focus? hf
      exact ⟨f.entry, mem_of_splits hs, rfl⟩
  | read r =>
    rw [perform_read]
    split
    · exact h.readStop_within r
    · exact h.cursor
  | createBookmark =>
    rcases t.perform_createBookmark with he | he
    all_goals rw [he]; exact h.cursor
  | freeBookmark mark =>
    rcases t.perform_freeBookmark mark with he | ⟨freed, he⟩
    all_goals rw [he]; exact h.cursor
  | find | contains | isEmpty | rowCount => exact h.cursor
  | visibleBefore | resolve | family | get | verify => rw [perform_ask rfl]; exact h.cursor

theorem Sound.bookmarks_perform (h : t.Sound) (hc : c.edits = false) :
    ∀ b ∈ (t.perform c).2.bookmarks, b.position.Within t.entries := by
  cases c with
  | put | erase | setColumn | clear | collapse | expand => cases hc
  | createBookmark =>
    rcases t.perform_createBookmark with he | he
    all_goals rw [he]
    · exact h.bookmarks
    · intro b hb
      rcases List.mem_append.1 hb with hb | hb
      · exact h.bookmarks b hb
      · cases List.mem_singleton.1 hb
        exact h.cursor
  | freeBookmark mark =>
    rcases t.perform_freeBookmark mark with he | ⟨freed, he⟩
    all_goals rw [he]
    · exact h.bookmarks
    · exact fun b hb => h.bookmarks b (List.mem_filter.1 hb).1
  | seek origin offset =>
    rcases t.perform_seek origin offset with he | ⟨p, he, -⟩
    all_goals rw [he]; exact h.bookmarks
  | goTo key =>
    rcases t.perform_goTo key with he | ⟨f, -, he⟩
    all_goals rw [he]; exact h.bookmarks
  | read r =>
    rw [perform_read]
    split
    all_goals exact h.bookmarks
  | next | prev | lowerBound | find | contains | isEmpty | rowCount => exact h.bookmarks
  | visibleBefore | resolve | family | get | verify => rw [perform_ask rfl]; exact h.bookmarks

/-- Every command keeps a table sound. -/
theorem Sound.perform (h : t.Sound) (c : Command) : (t.perform c).2.Sound := by
  cases c using Command.edits_cases with
  | same c hc => exact h.of_same (t.perform_same hc) (h.cursor_perform hc) (h.bookmarks_perform hc)
  | put key columns hidden => exact h.perform_put key columns hidden
  | setColumn key index column =>
    rw [perform_setColumn]
    split
    · exact h.perform_put key _ _
    · exact h
  | erase key =>
    rcases t.perform_erase key with ⟨-, he⟩ | ⟨f, hf, he⟩
    all_goals rw [he]
    · exact h
    · exact (h.detach (h.splits_of_focus? hf).1).note _
  | clear => exact h.clear
  | collapse key =>
    rcases t.perform_collapse key with ⟨-, he⟩ | ⟨f, hf, he⟩
    all_goals rw [he]
    · exact h
    · exact (h.collapsed (h.splits_of_focus? hf).1).note _
  | expand key =>
    rcases t.perform_expand key with he | ⟨f, n, hf, he⟩
    all_goals rw [he]
    · exact h
    · exact (h.expanded (h.splits_of_focus? hf).1).note _

/-! ## A run -/

theorem Sound.run (h : t.Sound) (commands : List Command) : (t.run commands).Sound := by
  induction commands generalizing t with
  | nil => exact h
  | cons c rest ih => exact ih (h.perform c)

theorem Reachable.sound (h : t.Reachable) : t.Sound := by
  obtain ⟨settings, collation, commands, -, rfl⟩ := h
  exact (sound_empty settings collation).run commands

end Table

end LiveTable
