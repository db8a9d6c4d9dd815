import LiveTable.Proofs.Table.Steering
import LiveTable.Proofs.Tally
import LiveTable.Proofs.Tree.Shape

/-!
# Collapses in any order

Which rows are members of a category does not depend on what is visible, so that a collapse hides
the rows of certain keys whatever was collapsed before it (`Sound.perform_collapse_eq`,
`memberKeys_hideAll`). The cursor leaves hidden rows for the first visible row from where it is
(`Position.settle`). Hiding more and settling again leads to the same row as hiding all at once and
settling then (`Position.settle_settle`), since the rows that were passed over stay hidden. Two
collapses therefore lead to the same table in either order, and a second collapse of the same
category changes nothing but the tally (`collapsesCommute_of_reachable`).
-/

namespace LiveTable

/-- The row, hidden if it has one of the keys. -/
def Entry.hideIn (keys : List Key) (a : Entry) : Entry := if a.key ∈ keys then a.hide else a

namespace Entry

variable {ks ls : List Key} {a : Entry}

theorem hideIn_of_not_mem (h : a.key ∉ ks) : a.hideIn ks = a := if_neg h

@[simp] theorem toRow_hideIn (ks : List Key) (a : Entry) : (a.hideIn ks).toRow = a.toRow := by
  unfold hideIn
  split <;> rfl

theorem hidden_hideIn (h : a.hidden = true) : (a.hideIn ks).hidden = true := by
  unfold hideIn
  split
  · rfl
  · exact h

theorem hideIn_comp_comm (ks ls : List Key) : hideIn ks ∘ hideIn ls = hideIn ls ∘ hideIn ks := by
  funext a
  by_cases hk : a.key ∈ ks <;> by_cases hl : a.key ∈ ls <;>
    simp [hideIn, hk, hl]

theorem hideIn_comp_self (ks : List Key) : hideIn ks ∘ hideIn ks = hideIn ks := by
  funext a
  by_cases hk : a.key ∈ ks <;> simp [hideIn, hk, hide]

end Entry

/-! ## Where the cursor settles -/

namespace Position

/-- On the first visible row at or after a position. -/
def settle (rows : List Entry) (p : Position) : Position :=
  .first ((p.ahead rows).dropWhile (·.hidden)) .pastEnd

variable {rows : List Entry} {change : Entry → Entry} {ks ls : List Key}

theorem ahead_map (hc : ∀ a, (change a).toRow = a.toRow) (rows : List Entry) (p : Position) :
    p.ahead (rows.map change) = (p.ahead rows).map change := by
  cases p with
  | beforeFirst => rfl
  | row key =>
    have hkey (a : Entry) : (change a).key = a.key := congrArg Row.key (hc a)
    rw [ahead, List.dropWhile_map]
    simp only [Function.comp_def, hkey]
    rfl
  | pastEnd => rfl

/-- The rows ahead of a position are some hidden ones, which are passed over, and those ahead of
where it settles, which begin with a visible one. -/
theorem settle_split (hd : Distinct rows) (p : Position) :
    ∃ passed rest, (∀ a ∈ passed, a.hidden = true) ∧ (∀ a ∈ rest.head?, a.hidden = false) ∧
      p.ahead rows = passed ++ rest ∧ settle rows p = .first rest .pastEnd ∧
      (settle rows p).ahead rows = rest := by
  obtain ⟨xs, hxs⟩ := ahead_suffix rows p
  have hsplit : rows = (xs ++ (p.ahead rows).takeWhile (·.hidden)) ++
      (p.ahead rows).dropWhile (·.hidden) := by
    rw [List.append_assoc, List.takeWhile_append_dropWhile]
    exact hxs
  have hahead := ahead_first (hsplit ▸ hd)
  rw [← hsplit] at hahead
  refine ⟨_, _, fun a ha => List.mem_takeWhile_imp ha, fun a ha => ?_,
    List.takeWhile_append_dropWhile.symm, rfl, hahead⟩
  have hnot := List.head?_dropWhile_not (·.hidden) (p.ahead rows)
  rw [ha] at hnot
  exact hnot

/-- What was passed over stays hidden when more rows are hidden. -/
theorem settle_settle (hd : Distinct rows) (ks : List Key) (p : Position) :
    settle (rows.map (.hideIn ks)) (settle rows p) = settle (rows.map (.hideIn ks)) p := by
  obtain ⟨passed, rest, hpassed, -, hahead, -, hrest⟩ := settle_split hd p
  have hhidden : ∀ a ∈ passed.map (Entry.hideIn ks), a.hidden = true := by
    intro a ha
    obtain ⟨b, hb, rfl⟩ := List.mem_map.1 ha
    exact Entry.hidden_hideIn (hpassed b hb)
  have hmap := ahead_map (Entry.toRow_hideIn ks) rows
  generalize settle rows p = q at hrest ⊢
  rw [settle, settle, hmap, hmap, hahead, hrest, List.map_append,
    List.dropWhile_append_of_pos hhidden]

theorem settle_of_not_mem (hd : Distinct rows) {p : Position}
    (hp : settle rows p ∉ ks.map .row) :
    settle (rows.map (.hideIn ks)) (settle rows p) = settle rows p := by
  obtain ⟨-, rest, -, hvisible, -, hfirst, hrest⟩ := settle_split hd p
  have hmap := ahead_map (Entry.toRow_hideIn ks) rows
  generalize settle rows p = q at hp hfirst hrest ⊢
  rw [settle, hmap, hrest]
  cases rest with
  | nil => exact hfirst.symm
  | cons a rest =>
    have hkey : a.key ∉ ks := fun hk => hp (hfirst ▸ List.mem_map_of_mem hk)
    rw [List.map_cons, Entry.hideIn_of_not_mem hkey,
      List.dropWhile_cons_of_neg (by simp [hvisible a rfl])]
    exact hfirst.symm

end Position

/-! ## One collapse -/

namespace Table

variable {t : Table} {xs ys : List Entry} {e : Entry} {key k l : Key} {ks ls : List Key}

def memberKeys (t : Table) (key : Key) : List Key :=
  match (Position.row key).ahead t.entries with
  | [] => []
  | e :: ys => (t.membersIn e ys).map (·.key)

/-- The table with the rows of some keys hidden. A cursor on one of them settles. -/
def hideAll (t : Table) (ks : List Key) : Table :=
  { t with
    tree := t.tree.revise (.hideIn ks)
    cursor :=
      if t.cursor ∈ ks.map .row then .settle (t.entries.map (.hideIn ks)) t.cursor else t.cursor
    tally := t.tally.note (.hidden ks.length) }

@[simp] theorem entries_hideAll (t : Table) (ks : List Key) :
    (t.hideAll ks).entries = t.entries.map (.hideIn ks) := Tree.toList_revise ..

theorem Sound.memberKeys_split (h : t.Sound) (he : t.entries = xs ++ e :: ys) :
    t.memberKeys e.key = (t.membersIn e ys).map (·.key) := by
  rw [memberKeys, he, Position.ahead_row (he ▸ h.distinct)]

theorem memberKeys_hideAll (t : Table) (ks : List Key) (key : Key) :
    (t.hideAll ks).memberKeys key = t.memberKeys key := by
  unfold memberKeys
  rw [entries_hideAll, Position.ahead_map (Entry.toRow_hideIn ks)]
  cases (Position.row key).ahead t.entries with
  | nil => rfl
  | cons e ys =>
    have hu : t.isUnder (e.hideIn ks).columns ∘ Entry.hideIn ks = t.isUnder e.columns := by
      funext a
      rw [Function.comp_apply, isUnder, Entry.toRow_hideIn, Entry.toRow_hideIn]
      rfl
    have hkey : (fun a : Entry => a.key) ∘ Entry.hideIn ks = fun a => a.key :=
      funext fun a => congrArg Row.key (Entry.toRow_hideIn ks a)
    show (((ys.map (Entry.hideIn ks)).takeWhile (t.isUnder (e.hideIn ks).columns)).map _) = _
    rw [List.takeWhile_map, List.map_map, hu, hkey]
    rfl

/-- The rows of a category are hidden with those that have their keys. -/
theorem Sound.map_hideIn_members (h : t.Sound) (he : t.entries = xs ++ e :: ys) :
    t.entries.map (.hideIn ((t.membersIn e ys).map (·.key))) =
      xs ++ e :: ((t.membersIn e ys).map Entry.hide ++ t.beyondIn e ys) := by
  rw [← h.map_members he]
  refine List.map_congr_left fun a ha => ?_
  have hm {b : Entry} (hb : b ∈ t.membersIn e ys) : b ∈ t.entries := by
    rw [entries_eq_members he]
    simp [hb]
  have hiff : a.key ∈ (t.membersIn e ys).map (·.key) ↔ a ∈ t.membersIn e ys := by
    constructor
    · intro hk
      obtain ⟨b, hb, hk⟩ := List.mem_map.1 hk
      exact h.distinct.eq_of_key (hm hb) ha hk ▸ hb
    · exact List.mem_map_of_mem
  simp only [Entry.hideIn, hiff]

theorem Sound.settle_members (h : t.Sound) (he : t.entries = xs ++ e :: ys) {a : Entry}
    (ha : a ∈ t.membersIn e ys) :
    Position.settle (t.entries.map (.hideIn ((t.membersIn e ys).map (·.key)))) (.row a.key) =
      .first ((t.beyondIn e ys).dropWhile (·.hidden)) .pastEnd := by
  have hd : Distinct (t.entries.map (.hideIn ((t.membersIn e ys).map (·.key)))) :=
    (SameRows.map (Entry.toRow_hideIn _) _).distinct h.distinct
  rw [h.map_hideIn_members he] at hd ⊢
  obtain ⟨as, bs, hm⟩ := List.append_of_mem ha
  have hsplit : xs ++ e :: ((t.membersIn e ys).map Entry.hide ++ t.beyondIn e ys) =
      (xs ++ e :: as.map Entry.hide) ++ a.hide :: (bs.map Entry.hide ++ t.beyondIn e ys) := by
    simp [hm]
  rw [hsplit] at hd ⊢
  show Position.settle _ (.row a.hide.key) = _
  rw [Position.settle, Position.ahead_row hd, ← List.cons_append, ← List.map_cons,
    List.dropWhile_append_of_pos]
  rintro b hb
  obtain ⟨c, -, rfl⟩ := List.mem_map.1 hb
  rfl

section

variable {f : Focus} (hs : f.Splits t.tree xs e ys)

include hs

theorem Sound.tree_collapsed_eq (h : t.Sound) :
    (t.collapsed f).tree = (t.hideAll (t.memberKeys e.key)).tree := by
  have he := entries_of_splits hs
  show f.mapWhile (t.isUnder f.entry.columns) Entry.hide = t.tree.revise (.hideIn _)
  rw [← hs.plug]
  refine Focus.mapWhile_eq_revise (hs.plug ▸ h.tree) ?_
  rw [hs.plug, h.memberKeys_split he]
  exact (entries_collapsed hs).trans (h.map_hideIn_members he).symm

theorem Sound.cursor_collapsed_eq (h : t.Sound) :
    (t.collapsed f).cursor = (t.hideAll (t.memberKeys e.key)).cursor := by
  have he := entries_of_splits hs
  have hkeys : (t.membersIn e ys).map (Position.row ·.key) = (t.memberKeys e.key).map .row := by
    rw [h.memberKeys_split he, List.map_map]
    rfl
  rw [cursor_collapsed hs, cursorAfterHiding_eq, hideAll, hkeys]
  show _ = if t.cursor ∈ _ then _ else _
  split
  · rename_i hm
    rw [← hkeys] at hm
    obtain ⟨a, ha, hc⟩ := List.mem_map.1 hm
    rw [← hc, h.memberKeys_split he, h.settle_members he ha]
  · rfl

end

/-- A collapse hides the rows of the keys that it answers with. -/
theorem Sound.perform_collapse_eq (h : t.Sound) (hk : HasKey t.entries key) :
    t.perform (.collapse key) = (.ok (.keys (t.memberKeys key)), t.hideAll (t.memberKeys key)) := by
  obtain ⟨f, xs, e, ys, hf, hs, rfl⟩ := h.focus?_of_hasKey hk
  have hmembers := h.memberKeys_split (entries_of_splits hs)
  have hlen : (t.membersIn e ys).length = (t.memberKeys e.key).length := by
    rw [hmembers, List.length_map]
  have htable : (t.collapsed f).note (.hidden (t.memberKeys e.key).length) =
      t.hideAll (t.memberKeys e.key) := by
    show ({ t with
      tree := (t.collapsed f).tree
      cursor := (t.collapsed f).cursor
      tally := t.tally.note (.hidden (t.memberKeys e.key).length) } : Table) = _
    rw [h.tree_collapsed_eq hs, h.cursor_collapsed_eq hs]
    rfl
  rw [perform_of_ok (c := .collapse e.key) (congrArg (Except.map _) (collapse_of_some hf)),
    members_fst hs, ← hmembers, hlen, htable]

/-! ## Two collapses -/

/-- Where the cursor is after rows were hidden twice does not depend on how far it went the first
time. -/
theorem cursor_hideAll_hideAll (hd : Distinct t.entries) (ks ls : List Key) :
    ((t.hideAll ks).hideAll ls).cursor =
      if t.cursor ∈ ks.map .row ∨ t.cursor ∈ ls.map .row then
        .settle (t.entries.map (Entry.hideIn ls ∘ Entry.hideIn ks)) t.cursor
      else t.cursor := by
  have hd' : Distinct (t.hideAll ks).entries := by
    rw [entries_hideAll]
    exact (SameRows.map (Entry.toRow_hideIn ks) _).distinct hd
  have hcursor : (t.hideAll ks).cursor =
      if t.cursor ∈ ks.map .row then .settle (t.hideAll ks).entries t.cursor else t.cursor := by
    rw [entries_hideAll]
    rfl
  rw [← List.map_map, ← entries_hideAll]
  show (if (t.hideAll ks).cursor ∈ ls.map .row then
    Position.settle ((t.hideAll ks).entries.map (.hideIn ls)) (t.hideAll ks).cursor
    else (t.hideAll ks).cursor) = _
  rw [hcursor]
  by_cases hk : t.cursor ∈ ks.map .row
  · have hsettle := Position.settle_settle hd' ls t.cursor
    have heither : t.cursor ∈ ks.map .row ∨ t.cursor ∈ ls.map .row := .inl hk
    rw [if_pos hk, if_pos heither]
    split
    · exact hsettle
    · rename_i hl
      exact (Position.settle_of_not_mem hd' hl).symm.trans hsettle
  · rw [if_neg hk]
    simp only [hk, false_or]

theorem hideAll_comm (hd : Distinct t.entries) (ks ls : List Key) :
    (t.hideAll ks).hideAll ls = (t.hideAll ls).hideAll ks := by
  have hcursor : ((t.hideAll ks).hideAll ls).cursor = ((t.hideAll ls).hideAll ks).cursor := by
    rw [cursor_hideAll_hideAll hd, cursor_hideAll_hideAll hd, Entry.hideIn_comp_comm]
    simp only [or_comm]
  show ({ t with
    tree := (t.tree.revise (.hideIn ks)).revise (.hideIn ls)
    cursor := ((t.hideAll ks).hideAll ls).cursor
    tally := (t.tally.note (.hidden ks.length)).note (.hidden ls.length) } : Table) = _
  rw [hcursor, Tree.revise_revise, Entry.hideIn_comp_comm, ← Tree.revise_revise, Tally.note_comm]
  rfl

/-- Rows that are hidden already are hidden again to no effect but on the tally. -/
theorem hideAll_hideAll_self (hd : Distinct t.entries) (ks : List Key) :
    (t.hideAll ks).hideAll ks = (t.hideAll ks).note (.hidden ks.length) := by
  have hcursor : ((t.hideAll ks).hideAll ks).cursor = (t.hideAll ks).cursor := by
    rw [cursor_hideAll_hideAll hd, Entry.hideIn_comp_self]
    simp only [or_self]
    rfl
  show ({ t.hideAll ks with
    tree := (t.tree.revise (.hideIn ks)).revise (.hideIn ks)
    cursor := ((t.hideAll ks).hideAll ks).cursor
    tally := (t.hideAll ks).tally.note (.hidden ks.length) } : Table) = _
  rw [hcursor, Tree.revise_revise, Entry.hideIn_comp_self]
  rfl

/-- What the order of two collapses is worth, and what it is to collapse twice. -/
structure CollapsesCommute (t : Table) (k l : Key) : Prop where
  /-- Each header has its own list of members, in either order. -/
  replies : ∃ ks ls,
    t.replies [.collapse k, .collapse l] = [.ok (.keys ks), .ok (.keys ls)] ∧
      t.replies [.collapse l, .collapse k] = [.ok (.keys ls), .ok (.keys ks)]
  /-- Both orders lead to the same table: rows, cursor, bookmarks and tally. -/
  run : t.run [.collapse k, .collapse l] = t.run [.collapse l, .collapse k]
  /-- Collapsing once more gives the same list and is only counted. -/
  again : ∃ ks t', t.perform (.collapse k) = (.ok (.keys ks), t') ∧
    t'.perform (.collapse k) = (.ok (.keys ks), t'.note (.hidden ks.length))

theorem collapsesCommute_of_reachable (h : t.Reachable) (hk : HasKey t.entries k)
    (hl : HasKey t.entries l) : t.CollapsesCommute k l := by
  have hs := h.sound
  have hcollapse {key : Key} (hkey : HasKey t.entries key) := hs.perform_collapse_eq hkey
  -- after a collapse the members of a category are those that they were
  have hnext {key key' : Key} (hkey : HasKey t.entries key) (hkey' : HasKey t.entries key') :
      (t.hideAll (t.memberKeys key)).perform (.collapse key') = (.ok (.keys (t.memberKeys key')),
        (t.hideAll (t.memberKeys key)).hideAll (t.memberKeys key')) := by
    have hsound : (t.hideAll (t.memberKeys key)).Sound := by
      have := hs.perform (.collapse key)
      rwa [hcollapse hkey] at this
    have hkept : HasKey (t.hideAll (t.memberKeys key)).entries key' := by
      rw [entries_hideAll]
      exact (SameRows.map (Entry.toRow_hideIn _) _).hasKey.2 hkey'
    rw [hsound.perform_collapse_eq hkept, memberKeys_hideAll]
  refine ⟨⟨t.memberKeys k, t.memberKeys l, ?_, ?_⟩, ?_,
    ⟨t.memberKeys k, t.hideAll (t.memberKeys k), hcollapse hk, ?_⟩⟩
  · simp only [replies, hcollapse hk, hnext hk hl]
  · simp only [replies, hcollapse hl, hnext hl hk]
  · simp only [run_cons, run_nil, hcollapse hk, hcollapse hl, hnext hk hl, hnext hl hk]
    exact hideAll_comm hs.distinct _ _
  · rw [hnext hk hk, hideAll_hideAll_self hs.distinct]

/-- A category within a category, with the cursor on the innermost row, and a bookmark there. -/
def nestedCategories : Table :=
  (empty {} .bytewise).run [.put ⟨1, 1⟩ [Column.binary [1]] false,
    .put ⟨1, 2⟩ [Column.binary [1], Column.binary [1]] false,
    .put ⟨1, 3⟩ [Column.binary [1], Column.binary [1], Column.binary [1]] false,
    .put ⟨1, 4⟩ [Column.binary [1], Column.binary [2]] false,
    .put ⟨1, 5⟩ [Column.binary [2]] false, .goTo ⟨1, 3⟩, .createBookmark]

/-- The inner category first, the cursor leaves the innermost row for one that is hidden next. -/
theorem collapsesCommute_nestedCategories :
    nestedCategories.Reachable ∧ HasKey nestedCategories.entries ⟨1, 1⟩ ∧
      HasKey nestedCategories.entries ⟨1, 2⟩ ∧
      (nestedCategories.perform (.collapse ⟨1, 2⟩)).2.cursor = .row ⟨1, 4⟩ ∧
      (nestedCategories.perform (.collapse ⟨1, 1⟩)).2.cursor = .row ⟨1, 5⟩ ∧
      nestedCategories.run [.collapse ⟨1, 2⟩, .collapse ⟨1, 1⟩] =
        nestedCategories.run [.collapse ⟨1, 1⟩, .collapse ⟨1, 2⟩] := by
  have hreachable : nestedCategories.Reachable := ⟨{}, .bytewise, _, rfl, rfl⟩
  have hkeys : nestedCategories.entries.map (·.key) =
      [⟨1, 1⟩, ⟨1, 2⟩, ⟨1, 3⟩, ⟨1, 4⟩, ⟨1, 5⟩] := by cbv
  have hkey (key : Key) (hk : key ∈ nestedCategories.entries.map (·.key)) :
      HasKey nestedCategories.entries key := List.mem_map.1 hk
  have houter := hkey ⟨1, 1⟩ (by simp [hkeys])
  have hinner := hkey ⟨1, 2⟩ (by simp [hkeys])
  exact ⟨hreachable, houter, hinner, by cbv, by cbv,
    (collapsesCommute_of_reachable hreachable hinner houter).run⟩

end Table

end LiveTable
