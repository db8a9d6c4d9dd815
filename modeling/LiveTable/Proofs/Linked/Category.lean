import LiveTable.Proofs.Linked.Mark
import LiveTable.Proofs.Linked.Put
import LiveTable.Proofs.Table.Category

/-!
# Categories of linked tables

Hiding or showing the members of a category one by one, with the numbers above each of them counted
anew, comes to the tree with all of them changed at once (`sweep`). A cursor on a member is found
among the slots that the walk has passed, and goes where the walk over hidden rows ends.
-/

namespace LiveTable.LinkedTable.Represents

variable {w : LinkedTable} {t : Table} {all : List Nat} {f : Focus} {key : Key} {slot : Nat}

theorem withNodes (h : w.Represents t all) {g : Nodes} {tree : Tree}
    (hrows : Nodes.SameRows w.nodes g) (hg : g.Grown tree all) (ht : tree.Sound)
    (hsame : SameRows tree.toList t.entries) :
    (w.withNodes g).Represents { t with tree := tree } all where
  sound := h.sound.change ht hsame (h.sound.cursor.sameRows hsame)
  settings := h.settings
  collation := h.collation
  arrivals := h.arrivals
  nextMark := h.nextMark
  tally := h.tally
  rows := by
    show Store.mk w.index ((w.pool.refill g).map (·.cell.toRow)) = t.store
    rw [Pool.map_refill_of_rows hrows]
    exact h.rows
  housed := h.housed.refill hrows hg
  cursor := h.cursor
  bookmarks := h.bookmarks

/-- What a walk that hides and shows the rows after a row has come to. -/
structure SweptAfter (w : LinkedTable) (t : Table) (all : List Nat) (f : Focus)
    (p : Entry → Bool) (change : Entry → Entry) (flag : Entry → Option Bool)
    (rows : List (Nat × Key)) (stop : Nat) (g : Nodes) : Prop where
  represents : (w.withNodes g).Represents { t with tree := f.mapWhile p change } all
  nodes : (w.withNodes g).nodes = g
  keys : rows.map (·.2) = ((f.after.takeWhile p).filter (fun e => (flag e).isSome)).map (·.key)
  slots : ∀ r ∈ rows, w.index[r.2]? = some r.1
  ends : ∃ start, g.Reaches all start stop ∧ reach .right start = f.after.dropWhile p

theorem sweep (h : w.Represents t all) (hf : f.plug = t.tree) (p : Entry → Bool)
    (flag : Entry → Option Bool) {change : Entry → Entry}
    (hrow : ∀ e, (change e).toRow = e.toRow)
    (hchange : changeWhile p (Nodes.marked flag) f.after = changeWhile p change f.after)
    {first : Nat} (hstep : w.nodes.Reaches all (f.step .right) first) :
    ∃ rows stop g, Nodes.markWhile p flag w.nodes first = some (rows, stop, g) ∧
      SweptAfter w t all f p change flag rows stop g := by
  have hahead : reach .right (f.step .right) = f.after := reach_step f .right
  have hlist : t.tree.toList = (f.before ++ [f.entry]) ++ reach .right (f.step .right) := by
    rw [hahead, ← hf, f.toList_plug, List.append_assoc]
    rfl
  have hplug : ∀ g ∈ f.step .right, g.plug = t.tree := fun g hg =>
    (Focus.step_some hg).2.trans hf
  obtain ⟨rows, stop, g, hmark, hswept⟩ := Nodes.Reaches.markWhile p flag h.grown
    h.sound.tree.counted hplug hlist hstep
  have hsame := Nodes.sameRows_markWhile hmark
  have hsound : (f.mapWhile p change).Sound := Focus.sound_mapWhile (hf ▸ h.sound.tree) p change
  have hmap : (f.mapWhile p change).toList = f.before ++ f.entry :: changeWhile p change f.after :=
    f.toList_mapWhile p change
  obtain ⟨tree, hgrown, hcounted, hshape, htree⟩ := hswept.tree
  -- the walk has come to a tree of the same shape with the same rows
  have htree : tree = f.mapWhile p change := by
    refine hcounted.eq_of_shape hsound.counted (hshape.trans ?_) (htree.trans ?_)
    · rw [f.shape_mapWhile, hf]
    · rw [hahead, hchange, hmap, List.append_assoc]
      rfl
  subst htree
  have hentries : SameRows (f.mapWhile p change).toList t.entries := by
    rw [hmap, Table.entries_of_splits (Focus.splits_self hf)]
    exact (SameRows.refl _).append ((changeWhile_sameRows hrow f.after).cons f.entry)
  refine ⟨rows, stop, g, hmark, h.withNodes hsame hgrown hsound hentries,
    Pool.get?_refill_of_rows hsame, ?_, ?_, ?_⟩
  · rw [hswept.keys, hahead]
  · intro r hr
    obtain ⟨hm, hkey⟩ := hswept.slots r hr
    obtain ⟨n, hn, hk⟩ := Option.map_eq_some_iff.1 hkey
    rw [← hk]
    exact h.housed.indexed r.1 hm n hn
  · obtain ⟨start, hr, hs⟩ := hswept.ends
    exact ⟨start, hr, by rw [hs, hahead]⟩

/-- The cursor is among the slots that were passed if it is on one of the rows there. -/
theorem aside (h : w.Represents t all) (hf : f.plug = t.tree) {p : Entry → Bool}
    {change : Entry → Entry} {flag : Entry → Option Bool} {rows : List (Nat × Key)} {stop : Nat}
    {g : Nodes} (hs : SweptAfter w t all f p change flag rows stop g)
    (hkeys : rows.map (·.2) = (f.after.takeWhile p).map (·.key)) :
    w.aside (rows.map (·.1)) g stop = some (w.slotOf
      (Table.cursorAfterHiding (f.after.takeWhile p) (f.after.dropWhile p) t.cursor)) := by
  have hentries := Table.entries_of_splits (Focus.splits_self hf)
  have hon : w.cursor ∈ (rows.map (·.1)).map some ↔
      ∃ key, t.cursor = .row key ∧ key ∈ (f.after.takeWhile p).map (·.key) := by
    simp only [List.map_map, List.mem_map, ← hkeys]
    constructor
    · rintro ⟨r, hr, he⟩
      have hkey : r.2 ∈ (f.after.takeWhile p).map (·.key) := hkeys ▸ List.mem_map_of_mem hr
      obtain ⟨e, he', hk⟩ := List.mem_map.1 hkey
      have hm : e ∈ t.entries := by
        rw [hentries]
        simp [List.takeWhile_subset _ he']
      refine ⟨r.2, ?_, r, hr, rfl⟩
      rw [← h.slotOf_eq_iff ⟨e, hm, hk⟩ (hs.slots r hr) h.sound.cursor, ← h.cursor]
      exact he.symm
    · rintro ⟨key, hc, r, hr, rfl⟩
      exact ⟨r, hr, by rw [h.cursor, hc]; exact (hs.slots r hr).symm⟩
  rw [LinkedTable.aside]
  by_cases hm : ∃ key, t.cursor = .row key ∧ key ∈ (f.after.takeWhile p).map (·.key)
  · rw [if_pos (hon.2 hm)]
    obtain ⟨key, hc, hk⟩ := hm
    obtain ⟨start, hr, hreach⟩ := hs.ends
    obtain ⟨i, hi, hskip⟩ := hr.skipHidden h.grown.zero_notMem .right
    have hlands := hs.represents.landing_right (by rw [hs.nodes]; exact hskip)
    have hcursor : Table.cursorAfterHiding (f.after.takeWhile p) (f.after.dropWhile p) t.cursor =
        .first ((f.after.dropWhile p).dropWhile (·.hidden)) .pastEnd := by
      simp only [Table.cursorAfterHiding, hc, if_pos hk]
    rw [hi, Option.map_some, hlands, Position.orEnd_eq .right, span_stop, hreach, hcursor]
    rfl
  · have hcursor : Table.cursorAfterHiding (f.after.takeWhile p) (f.after.dropWhile p) t.cursor =
        t.cursor := by
      unfold Table.cursorAfterHiding
      split
      · rename_i key hc
        exact (if_neg fun hk => hm ⟨key, hc, hk⟩).trans hc.symm
      · rfl
    rw [if_neg (mt hon.1 hm), h.cursor, hcursor]

theorem collapse (h : w.Represents t all) (key : Key) :
    Agrees Matches (w.collapse key) (t.collapse key) := by
  rw [LinkedTable.collapse, LinkedTable.lookup]
  rcases h.key_cases key with ⟨hf, hi⟩ | ⟨f, slot, hf, -, hp, hi, hat⟩
  · rw [Table.collapse_of_none hf, hi]
    exact .error _
  · obtain ⟨-, n, _, _, get, holds, -, -⟩ := hat.exists_node
    obtain ⟨first, hfirst, hreaches⟩ := hat.step h.grown.zero_notMem .right
    obtain ⟨rows, stop, g, hmark, hs⟩ := h.sweep hp (t.isUnder f.entry.columns)
      (fun _ => some true) Entry.hide_toRow rfl hreaches
    have hsplits := Focus.splits_self hp
    have hfst : (t.members f).1 = f.after.takeWhile (t.isUnder f.entry.columns) :=
      Table.members_fst hsplits
    have hsnd : reach .right (t.members f).2 = f.after.dropWhile (t.isUnder f.entry.columns) :=
      Table.reach_members_snd hsplits
    have hkeys : rows.map (·.2) = (t.members f).1.map (·.key) := by
      rw [hs.keys, hfst]
      exact congrArg (List.map _) (List.filter_eq_self.2 fun _ _ => rfl)
    have hlength : (rows.map (·.2)).length = (t.members f).1.length := by
      rw [hkeys, List.length_map]
    have haside := h.aside hp hs (hkeys.trans (by rw [hfst]))
    have hsound : (t.collapsed f).Sound := h.sound.collapsed hsplits
    simp only [hi, pure_bind]
    refine .lift get (.lift hfirst ?_)
    rw [h.isUnder, holds.cell]
    refine .lift hmark (.lift haside ?_)
    have hcursor : (t.collapsed f).cursor = Table.cursorAfterHiding
        (f.after.takeWhile (t.isUnder f.entry.columns))
        (f.after.dropWhile (t.isUnder f.entry.columns)) t.cursor := by
      rw [← hfst, ← hsnd]
      rfl
    have hmoved := (hs.represents.moveTo (p := (t.collapsed f).cursor) hsound.cursor).note
      (.hidden (rows.map (·.2)).length)
    rw [Table.collapse_of_some hf, ← hcursor]
    refine .ok ⟨hkeys, all, ?_⟩
    rw [← hlength]
    exact hmoved

theorem width_of_step {first : Nat}
    (hstep : w.nodes.Reaches all (f.step .right) first) (p : Entry → Bool) :
    f.after.takeWhile p = [] ∨
      ((w.nodes first).map (·.cell.columns.length)).getD 0 =
        Table.widthIn (f.after.takeWhile p) := by
  have hahead : reach .right (f.step .right) = f.after := reach_step f .right
  cases hs : f.step .right with
  | none =>
    rw [hs] at hahead
    exact .inl (by rw [← hahead]; rfl)
  | some next =>
    rw [hs] at hahead hstep
    obtain ⟨-, n, _, _, get, holds, -, -⟩ := Nodes.At.exists_node hstep
    rw [← hahead, reach, List.takeWhile_cons]
    split
    · refine .inr ?_
      rw [get, Option.map_some, holds.cell]
      rfl
    · exact .inl rfl

theorem marked_eq_reveal (width : Nat) :
    Nodes.marked (fun e => if e.columns.length = width then some false else none) =
      Table.reveal width := by
  funext e
  unfold Nodes.marked Table.reveal
  by_cases he : e.columns.length = width
  · simp only [if_pos he]
    rfl
  · simp only [if_neg he]

theorem expand (h : w.Represents t all) (key : Key) :
    Agrees Matches (w.expand key) (t.expand key) := by
  rw [LinkedTable.expand, LinkedTable.lookup]
  rcases h.key_cases key with ⟨hf, hi⟩ | ⟨f, slot, hf, -, hp, hi, hat⟩
  · rw [Table.expand_of_none hf, hi]
    exact .error _
  · obtain ⟨-, n, _, _, get, holds, -, -⟩ := hat.exists_node
    obtain ⟨first, hfirst, hreaches⟩ := hat.step h.grown.zero_notMem .right
    simp only [hi, pure_bind]
    refine .lift get ?_
    rw [holds.cell]
    cases hh : f.cell.hidden with
    | true =>
      rw [Table.expand_of_hidden hf hh]
      exact .error _
    | false =>
      have hfst : (t.members f).1 = f.after.takeWhile (t.isUnder f.entry.columns) :=
        Table.members_fst (Focus.splits_self hp)
      let width := ((w.nodes first).map (·.cell.columns.length)).getD 0
      let flag (e : Entry) : Option Bool := if e.columns.length = width then some false else none
      have hwidth : f.after.takeWhile (t.isUnder f.entry.columns) = [] ∨
          width = Table.widthIn (t.members f).1 := by
        rw [hfst]
        exact width_of_step hreaches _
      have hchange : changeWhile (t.isUnder f.entry.columns) (Nodes.marked flag) f.after =
          changeWhile (t.isUnder f.entry.columns) (Table.reveal (Table.widthIn (t.members f).1))
            f.after := by
        rw [marked_eq_reveal]
        rcases hwidth with hnil | he
        · simp only [changeWhile, hnil, List.map_nil]
        · rw [he]
      obtain ⟨rows, stop, g, hmark, hs⟩ :=
        h.sweep hp (t.isUnder f.entry.columns) flag (reveal_toRow _) hchange hreaches
      have hkeys : rows.map (·.2) =
          ((t.members f).1.filter (·.columns.length = Table.widthIn (t.members f).1)).map
            (·.key) := by
        have hflag (e : Entry) : (flag e).isSome = decide (e.columns.length = width) := by
          by_cases he : e.columns.length = width
          · simp [flag, he]
          · simp [flag, he]
        rw [hs.keys, List.filter_congr fun e _ => hflag e, ← hfst]
        rcases hwidth with hnil | he
        · rw [hfst, hnil]
          rfl
        · rw [he]
      rw [Table.expand_of_some hf hh, h.isUnder]
      refine .lift hfirst (.lift hmark (.ok ⟨hkeys, all, ?_⟩))
      have hnote := hs.represents.note (.unhidden (rows.map (·.2)).length)
      rw [hkeys, List.length_map] at hnote ⊢
      exact hnote

end LiveTable.LinkedTable.Represents
