import LiveTable.Proofs.Table.Sound

/-!
# What collapsing and expanding do to the rows

The members of a category are the leading ones of the rows after its header that are under it.
Collapsing and expanding change the visibility of members and nothing else about the rows; a
cursor on a member that is hidden goes to the first visible row after the members.
-/

namespace LiveTable

theorem changeWhile_sameRows {p : Entry → Bool} {change : Entry → Entry}
    (hc : ∀ e, (change e).toRow = e.toRow) (rows : List Entry) :
    SameRows (changeWhile p change rows) rows := by
  have h := (SameRows.map hc (rows.takeWhile p)).append (.refl (rows.dropWhile p))
  rwa [List.takeWhile_append_dropWhile] at h

theorem reveal_toRow (width : Nat) (e : Entry) : (Table.reveal width e).toRow = e.toRow := by
  unfold Table.reveal
  split <;> rfl

namespace Table

variable {t : Table} {f : Focus} {key : Key} {xs ys : List Entry} {e : Entry}

/-- A table whose rows are changed in visibility only is as sound as before. -/
theorem Sound.change (h : t.Sound) {tree : Tree} (ht : tree.Sound) {p : Position}
    (hr : SameRows tree.toList t.entries) (hp : p.Within tree.toList) :
    ({ t with tree := tree, cursor := p } : Table).Sound where
  tree := ht
  store := h.store
  distinct := hr.distinct h.distinct
  find?_iff key row := by
    rw [h.find?_iff key row]
    exact (hr.exists_iff fun r => r.key = key ∧ r = row).symm
  size_eq := h.size_eq.trans hr.length_eq.symm
  cursor := hp
  bookmarks b hb := (h.bookmarks b hb).sameRows hr

/-! ## Members -/

/-- The rows under a header among the rows after it. -/
def membersIn (t : Table) (e : Entry) (ys : List Entry) : List Entry :=
  ys.takeWhile (t.isUnder e.columns)

def beyondIn (t : Table) (e : Entry) (ys : List Entry) : List Entry :=
  ys.dropWhile (t.isUnder e.columns)

theorem membersIn_append_beyondIn (t : Table) (e : Entry) (ys : List Entry) :
    t.membersIn e ys ++ t.beyondIn e ys = ys := List.takeWhile_append_dropWhile

theorem membersIn_map {change : Entry → Entry} (hc : ∀ a, (change a).toRow = a.toRow) (t : Table)
    (e : Entry) (ys : List Entry) :
    t.membersIn e ((t.membersIn e ys).map change ++ t.beyondIn e ys) =
        (t.membersIn e ys).map change ∧
      t.beyondIn e ((t.membersIn e ys).map change ++ t.beyondIn e ys) = t.beyondIn e ys := by
  have hu (a : Entry) : t.isUnder e.columns (change a) = t.isUnder e.columns a := by
    rw [isUnder, hc]
    rfl
  unfold membersIn beyondIn
  induction ys with
  | nil => exact ⟨rfl, rfl⟩
  | cons a rest ih =>
    cases ha : t.isUnder e.columns a with
    | true => simpa [ha, hu] using ih
    | false => simp [ha]

/-- The rows by the place that they have in a category: up to its header, in it and beyond it. -/
theorem entries_eq_members (he : t.entries = xs ++ e :: ys) :
    t.entries = (xs ++ [e]) ++ (t.membersIn e ys ++ t.beyondIn e ys) := by
  rw [t.membersIn_append_beyondIn, he, List.append_assoc]
  rfl

/-- A change of the rows that are members is one of the members. -/
theorem Sound.map_members (h : t.Sound) (he : t.entries = xs ++ e :: ys)
    (change : Entry → Entry) :
    t.entries.map (fun a => if a ∈ t.membersIn e ys then change a else a) =
      xs ++ e :: ((t.membersIn e ys).map change ++ t.beyondIn e ys) := by
  have hsplit := entries_eq_members he
  rw [hsplit, Distinct.map_run (hsplit ▸ h.distinct), List.append_assoc]
  rfl

theorem members_fst (hs : f.Splits t.tree xs e ys) : (t.members f).1 = t.membersIn e ys := by
  rw [members, span_rows, reach_step, hs.entry, membersIn, ← hs.after]
  rfl

theorem reach_members_snd (hs : f.Splits t.tree xs e ys) :
    reach .right (t.members f).2 = t.beyondIn e ys := by
  rw [members, span_stop, reach_step, hs.entry, beyondIn, ← hs.after]
  rfl

/-- A family are the rows from the header on that are under it. -/
theorem Sound.family_split (h : t.Sound) (he : t.entries = xs ++ e :: ys) :
    t.family e.key = .ok (((e :: ys).takeWhile (t.isUnder e.columns)).map (·.key)) := by
  obtain ⟨f, hf, hs⟩ := h.focus? he
  simp only [family, lookup_of_some hf]
  show Except.ok ((span .right (t.isUnder f.entry.columns) (some f)).1.map (·.key)) = _
  rw [span_rows, hs.reach_right, hs.entry]

/-! ## Collapsing -/

/-- Where the cursor goes when rows are hidden. -/
def cursorAfterHiding (members beyond : List Entry) (p : Position) : Position :=
  match p with
  | .row k =>
    if k ∈ members.map (·.key) then .first (beyond.dropWhile (·.hidden)) .pastEnd else .row k
  | p => p

def collapsed (t : Table) (f : Focus) : Table :=
  { t with
    tree := f.mapWhile (t.isUnder f.entry.columns) Entry.hide
    cursor := cursorAfterHiding (t.members f).1 (reach .right (t.members f).2) t.cursor }

theorem collapse_of_none (hf : t.focus? key = none) : t.collapse key = .error (.notFound key) := by
  simp only [collapse, lookup_of_none hf]
  rfl

theorem collapse_of_some (hf : t.focus? key = some f) :
    t.collapse key = .ok ((t.members f).1.map (·.key),
      (t.collapsed f).note (.hidden (t.members f).1.length)) := by
  have hc : (match t.cursor with
      | .row k =>
        if k ∈ (t.members f).1.map (·.key) then
          Position.orEnd (span .right (·.hidden) (t.members f).2).2 else .row k
      | position => position) =
      cursorAfterHiding (t.members f).1 (reach .right (t.members f).2) t.cursor := by
    unfold cursorAfterHiding
    split
    · rw [Position.orEnd_eq .right, span_stop]
    · rfl
  simp only [collapse, lookup_of_some hf]
  show Except.ok _ = _
  have hlen : ((t.members f).1.map (·.key)).length = (t.members f).1.length := List.length_map _
  rewrite [collapsed, ← hc, ← hlen]
  rfl

theorem entries_collapsed (hs : f.Splits t.tree xs e ys) :
    (t.collapsed f).entries =
      xs ++ e :: ((t.membersIn e ys).map Entry.hide ++ t.beyondIn e ys) := by
  refine (f.toList_mapWhile (t.isUnder f.entry.columns) Entry.hide).trans ?_
  rw [hs.before, hs.entry, hs.after]
  rfl

theorem cursor_collapsed (hs : f.Splits t.tree xs e ys) :
    (t.collapsed f).cursor = cursorAfterHiding (t.membersIn e ys) (t.beyondIn e ys) t.cursor := by
  rw [← members_fst hs, ← reach_members_snd hs]
  rfl

theorem sameRows_collapsed (hs : f.Splits t.tree xs e ys) :
    SameRows (t.collapsed f).entries t.entries := by
  have h := changeWhile_sameRows (p := t.isUnder e.columns) Entry.hide_toRow ys
  rw [entries_collapsed hs, entries_of_splits hs]
  exact (SameRows.refl xs).append (h.cons e)

theorem Sound.collapsed (h : t.Sound) (hs : f.Splits t.tree xs e ys) : (t.collapsed f).Sound := by
  refine h.change (Focus.sound_mapWhile (hs.plug ▸ h.tree) _ _) (sameRows_collapsed hs) ?_
  show (t.collapsed f).cursor.Within (t.collapsed f).entries
  rw [cursor_collapsed hs]
  have hc := h.cursor.sameRows (sameRows_collapsed hs)
  unfold cursorAfterHiding
  split
  · rename_i k hk
    split
    · refine Position.within_first ?_ trivial
      rw [entries_collapsed hs]
      intro a ha
      have := List.dropWhile_subset _ ha
      simp [this]
    · rwa [hk] at hc
  · exact hc

/-! ## Expanding -/

/-- How many columns the first member has. -/
def widthIn (members : List Entry) : Nat := (members.head?.map (·.columns.length)).getD 0

def expanded (t : Table) (f : Focus) : Table :=
  { t with tree := f.mapWhile (t.isUnder f.entry.columns) (reveal (widthIn (t.members f).1)) }

theorem expand_of_none (hf : t.focus? key = none) : t.expand key = .error (.notFound key) := by
  simp only [expand, lookup_of_none hf]
  rfl

theorem expand_of_hidden (hf : t.focus? key = some f) (hh : f.entry.hidden = true) :
    t.expand key = .error (.notFound key) := by
  rw [expand, lookup_of_some hf]
  exact if_pos hh

theorem expand_of_some (hf : t.focus? key = some f) (hh : f.entry.hidden = false) :
    t.expand key = .ok
      (((t.members f).1.filter (·.columns.length = widthIn (t.members f).1)).map (·.key),
        (t.expanded f).note (.unhidden
          ((t.members f).1.filter (·.columns.length = widthIn (t.members f).1)).length)) := by
  rw [expand, lookup_of_some hf]
  refine (if_neg (by simp [hh])).trans ?_
  have hlen (rows : List Entry) : (rows.map (·.key)).length = rows.length := List.length_map _
  rw [← hlen]
  rfl

/-- Expanding is refused only where the header is not there or hidden. -/
theorem expand_cases (t : Table) (key : Key) :
    t.expand key = .error (.notFound key) ∨
    ∃ f keys n, t.focus? key = some f ∧
      t.expand key = .ok (keys, (t.expanded f).note (.unhidden n)) := by
  cases hf : t.focus? key with
  | none => exact .inl (expand_of_none hf)
  | some f =>
    cases hh : f.entry.hidden with
    | true => exact .inl (expand_of_hidden hf hh)
    | false => exact .inr ⟨f, _, _, rfl, expand_of_some hf hh⟩

theorem entries_expanded (hs : f.Splits t.tree xs e ys) :
    (t.expanded f).entries =
      xs ++ e :: ((t.membersIn e ys).map (reveal (widthIn (t.membersIn e ys))) ++
        t.beyondIn e ys) := by
  refine (f.toList_mapWhile (t.isUnder f.entry.columns) _).trans ?_
  rw [hs.before, hs.entry, hs.after, members_fst hs]
  rfl

theorem sameRows_expanded (hs : f.Splits t.tree xs e ys) :
    SameRows (t.expanded f).entries t.entries := by
  have h := changeWhile_sameRows (p := t.isUnder e.columns)
    (reveal_toRow (widthIn (t.membersIn e ys))) ys
  rw [entries_expanded hs, entries_of_splits hs]
  exact (SameRows.refl xs).append (h.cons e)

theorem Sound.expanded (h : t.Sound) (hs : f.Splits t.tree xs e ys) : (t.expanded f).Sound :=
  h.change (Focus.sound_mapWhile (hs.plug ▸ h.tree) _ _) (sameRows_expanded hs)
    (h.cursor.sameRows (sameRows_expanded hs))

end Table

end LiveTable
