import LiveTable.Proofs.Table.Rank
import Mathlib

/-!
# The cursor while rows are edited

Only three commands that edit may move the cursor. Erasing the row under it leads to the next row,
hidden or not; collapsing a category over it leads to the first visible row after the category;
clearing leads to before the first row. A row that is brought to a new place takes the cursor
along. Whatever the command, the rank of the cursor is afterwards the number of visible rows
before it.
-/

namespace LiveTable.Table

/-- What each command that edits does to the cursor of a table. -/
structure Steers (t : Table) : Prop where
  /-- A command that fails changes nothing at all. -/
  refused (c : Command) (fault : Fault) : (t.perform c).1 = .error fault → (t.perform c).2 = t
  /-- A row that is not there cannot be erased, nor can its category be collapsed or expanded. -/
  missing (key : Key) : ¬ HasKey t.entries key →
    (t.perform (.erase key)).1 = .error (.notFound key) ∧
      (t.perform (.collapse key)).1 = .error (.notFound key) ∧
      (t.perform (.expand key)).1 = .error (.notFound key)
  /-- Neither a new row nor a row that is there already moves the cursor. -/
  puts (c : Command) : c.puts = true → (t.perform c).2.cursor = t.cursor
  /-- A row that is brought to a new place keeps its key, and the others stay in their order. -/
  resorts (c : Command) (key : Key) : t.resorted? c = some key →
    ∃ xs e ys xs' e' ys', t.entries = xs ++ e :: ys ∧ (t.perform c).2.entries = xs' ++ e' :: ys' ∧
      e.key = key ∧ t.brought? c = some (e'.key, e'.columns, e'.hidden) ∧ e'.key = key ∧
      xs' ++ ys' = xs ++ ys
  /-- The cursor leaves a row that is erased for the row directly after it. -/
  erases (xs : List Entry) (e : Entry) (ys : List Entry) : t.entries = xs ++ e :: ys →
    (t.perform (.erase e.key)).2.entries = xs ++ ys ∧
      (t.perform (.erase e.key)).2.cursor =
        if t.cursor = .row e.key then .first ys .pastEnd else t.cursor
  /-- The cursor leaves the members of a category, which are the rows that are answered with, for
  the first visible row after all of them. -/
  collapses (xs : List Entry) (e : Entry) (ys : List Entry) : t.entries = xs ++ e :: ys →
    (t.perform (.collapse e.key)).1 = .ok (.keys ((t.membersIn e ys).map (·.key))) ∧
      (t.perform (.collapse e.key)).2.entries =
        xs ++ e :: ((t.membersIn e ys).map Entry.hide ++ t.beyondIn e ys) ∧
      (t.perform (.collapse e.key)).2.cursor =
        if t.cursor ∈ (t.membersIn e ys).map (Position.row ·.key) then
          .first ((t.beyondIn e ys).dropWhile (·.hidden)) .pastEnd
        else t.cursor
  expands (key : Key) : (t.perform (.expand key)).2.cursor = t.cursor
  clears : (t.perform .clear).2.entries = [] ∧ (t.perform .clear).2.cursor = .beforeFirst
  /-- The cursor is on a row of the table or on none, and is counted to. -/
  ranks (c : Command) : (t.perform c).2.cursor.Within (t.perform c).2.entries ∧
    (t.perform c).2.currentRank =
      visibleCount ((t.perform c).2.cursor.behind (t.perform c).2.entries)

variable {t : Table} {c : Command} {key : Key} {xs ys : List Entry} {e : Entry}

theorem cursor_perform_puts (hc : c.puts = true) : (t.perform c).2.cursor = t.cursor := by
  cases c with
  | put key columns hidden => exact t.cursor_perform_put key columns hidden
  | setColumn key index column => exact t.cursor_perform_setColumn key index column
  | _ => cases hc

theorem puts_of_resorted? (h : t.resorted? c = some key) : c.puts = true := by
  cases c with
  | put | setColumn => rfl
  | _ => cases h

theorem Sound.entries_resorted (h : t.Sound) (hr : t.resorted? c = some key) :
    ∃ xs e ys xs' e' ys', t.entries = xs ++ e :: ys ∧ (t.perform c).2.entries = xs' ++ e' :: ys' ∧
      e.key = key ∧ t.brought? c = some (e'.key, e'.columns, e'.hidden) ∧ e'.key = key ∧
      xs' ++ ys' = xs ++ ys := by
  rcases t.perform_puts (puts_of_resorted? hr) with ⟨hn, -⟩ | ⟨key', columns, hidden, -, hn, -, -⟩ |
    ⟨f, key', columns, hidden, hb, hr', hf, he⟩
  · cases hn.symm.trans hr
  · cases hn.symm.trans hr
  · cases hr'.symm.trans hr
    obtain ⟨hs, rfl⟩ := h.splits_of_focus? hf
    -- the row is put among the others as they stand without it
    refine ⟨f.before, f.entry, f.after, (t.detach f).lower columns,
      (t.detach f).newEntry f.key columns hidden, (t.detach f).upper columns, hs.toList_eq, ?_, rfl,
      hb, rfl, ?_⟩
    · rw [he]
      exact entries_resort (t := t) (f := f) f.key columns hidden
    · rw [lower_append_upper, entries_detach hs]

theorem Sound.perform_erase_split (h : t.Sound) (he : t.entries = xs ++ e :: ys) :
    (t.perform (.erase e.key)).2.entries = xs ++ ys ∧
      (t.perform (.erase e.key)).2.cursor =
        if t.cursor = .row e.key then .first ys .pastEnd else t.cursor := by
  obtain ⟨f, hf, hs⟩ := h.focus? he
  rw [perform_map_ok (c := .erase e.key) rfl (erase_of_some hf) rfl]
  exact ⟨entries_detach hs, cursor_detach hs⟩

theorem cursorAfterHiding_eq (members beyond : List Entry) (p : Position) :
    cursorAfterHiding members beyond p =
      if p ∈ members.map (Position.row ·.key) then .first (beyond.dropWhile (·.hidden)) .pastEnd
      else p := by
  cases p <;> simp [cursorAfterHiding]

theorem Sound.perform_collapse_split (h : t.Sound) (he : t.entries = xs ++ e :: ys) :
    (t.perform (.collapse e.key)).1 = .ok (.keys ((t.membersIn e ys).map (·.key))) ∧
      (t.perform (.collapse e.key)).2.entries =
        xs ++ e :: ((t.membersIn e ys).map Entry.hide ++ t.beyondIn e ys) ∧
      (t.perform (.collapse e.key)).2.cursor =
        if t.cursor ∈ (t.membersIn e ys).map (Position.row ·.key) then
          .first ((t.beyondIn e ys).dropWhile (·.hidden)) .pastEnd
        else t.cursor := by
  obtain ⟨f, hf, hs⟩ := h.focus? he
  rw [perform_of_ok (c := .collapse e.key) (congrArg (Except.map _) (collapse_of_some hf)),
    ← members_fst hs, ← cursorAfterHiding_eq, members_fst hs]
  exact ⟨rfl, entries_collapsed hs, cursor_collapsed hs⟩

theorem cursor_perform_expand (t : Table) (key : Key) :
    (t.perform (.expand key)).2.cursor = t.cursor := by
  rcases t.perform_expand key with he | ⟨f, n, -, he⟩
  all_goals rw [he]
  rfl

theorem steers_of_reachable (h : t.Reachable) : t.Steers where
  refused c fault := perform_snd_of_error
  missing key hk := by
    have hf := h.sound.focus?_eq_none_iff.2 hk
    rw [perform_of_error (c := .erase key) (congrArg (Except.map _) (erase_of_none hf)),
      perform_of_error (c := .collapse key) (congrArg (Except.map _) (collapse_of_none hf)),
      perform_of_error (c := .expand key) (congrArg (Except.map _) (expand_of_none hf))]
    exact ⟨rfl, rfl, rfl⟩
  puts c := cursor_perform_puts
  resorts c key := h.sound.entries_resorted
  erases xs e ys := h.sound.perform_erase_split
  collapses xs e ys := h.sound.perform_collapse_split
  expands := t.cursor_perform_expand
  clears := ⟨rfl, rfl⟩
  ranks c :=
    have hs := (h.perform c).sound
    ⟨hs.cursor, hs.currentRank_eq⟩

/-- A category with one member, which the cursor is on, a hidden row and a visible one. -/
def onMember : Table :=
  (empty {} .bytewise).run [.put ⟨1, 1⟩ [Column.binary [1]] false,
    .put ⟨1, 2⟩ [Column.binary [1], Column.binary [5]] false,
    .put ⟨1, 3⟩ [Column.binary [2]] true, .put ⟨1, 4⟩ [Column.binary [3]] false, .goTo ⟨1, 2⟩]

/-- Erasing the member leads to the hidden row, collapsing its category past it. -/
theorem steers_of_reachable_on_member :
    onMember.Reachable ∧ (onMember.perform (.erase ⟨1, 2⟩)).2.cursor = .row ⟨1, 3⟩ ∧
      (onMember.perform (.collapse ⟨1, 1⟩)).2.cursor = .row ⟨1, 4⟩ := by
  have ht : onMember.Reachable := ⟨{}, .bytewise, _, rfl, rfl⟩
  have hsteers := steers_of_reachable ht
  have hcursor : onMember.cursor = .row ⟨1, 2⟩ := by cbv
  have hrows : onMember.entries = [⟨⟨⟨1, 1⟩, [Column.binary [1]], 0⟩, false⟩,
      ⟨⟨⟨1, 2⟩, [Column.binary [1], Column.binary [5]], 1⟩, false⟩,
      ⟨⟨⟨1, 3⟩, [Column.binary [2]], 2⟩, true⟩, ⟨⟨⟨1, 4⟩, [Column.binary [3]], 3⟩, false⟩] := by
    cbv
  have herase := (hsteers.erases [_] _ _ hrows).2
  have hcollapse := (hsteers.collapses [] _ _ hrows).2.2
  rw [hcursor] at herase hcollapse
  exact ⟨ht, herase, hcollapse⟩

end LiveTable.Table
