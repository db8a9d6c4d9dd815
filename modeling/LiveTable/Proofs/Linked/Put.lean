import LiveTable.Proofs.Linked.Represents
import LiveTable.Proofs.Linked.Rows
import LiveTable.Proofs.Table.Edit

/-!
# Rows of linked tables come, move and go

A row is linked in at the gap to which the other table descends, in the slot that its store hands
out (`attach`), and taken out of the slot to which its key leads (`detach`). What stands for a table
before stands for the changed one after, though not always in the same order of slots, and other
rows stay in their slots, so that positions on them do (`slotOf_congr`).
-/

namespace LiveTable

namespace Pool

variable {p : Pool Node} {g : Nodes}

theorem map_refill_of_rows (h : Nodes.SameRows p.get? g) :
    (p.refill g).map (·.cell.toRow) = p.map (·.cell.toRow) := map_refill h

theorem get?_refill_of_rows (h : Nodes.SameRows p.get? g) : (p.refill g).get? = g :=
  get?_refill h.isSome_iff

theorem map_refill_alloc {n : Node} (h : Nodes.SameRows (p.alloc n).2.get? g) :
    ((p.alloc n).2.refill g).map (·.cell.toRow) =
      ((p.map (·.cell.toRow)).alloc n.cell.toRow).2 :=
  (map_refill_of_rows h).trans (map_alloc n).1

end Pool

/-! ## Slots -/

namespace Housed

variable {p : Pool Node} {g : Nodes} {index : Std.HashMap Key Nat} {tree tree' : Tree}
  {all all' : List Nat}

/-- The nodes have been changed, but the rows are in the same slots. -/
theorem refill (h : Housed p index tree all) (hr : Nodes.SameRows p.get? g)
    (hg : g.Grown tree' all) : Housed (p.refill g) index tree' all := by
  refine ⟨?_, ?_, ?_⟩
  · rwa [Pool.get?_refill_of_rows hr]
  · intro i hi m hm
    rw [Pool.get?_refill_of_rows hr] at hm
    obtain ⟨m', hm', hkey⟩ := hr.exists_key hm
    rw [← hkey]
    exact h.indexed i hi m' hm'
  · intro i hi
    rw [Pool.get?_refill_of_rows hr, hr.isSome_iff] at hi
    exact h.occupied i hi

/-- The slot that is handed out is none of those in use. -/
theorem alloc_notMem (h : Housed p index tree all) (hp : p.Sound) (n : Node) :
    (p.alloc n).1 ∉ 0 :: all := by
  intro hi
  have hlive := h.grown.live hi
  rw [(hp.alloc_fst n).1] at hlive
  cases hlive

theorem get?_alloc_of_mem (h : Housed p index tree all) (hp : p.Sound) (n : Node) {i : Nat}
    (hi : i ∈ 0 :: all) : (p.alloc n).2.get? i = p.get? i := by
  rw [hp.get?_alloc, if_neg]
  rintro rfl
  exact h.alloc_notMem hp n hi

theorem insert (h : Housed p index tree all) (hp : p.Sound) {n : Node}
    (hk : index[n.cell.key]? = none) (hr : Nodes.SameRows (p.alloc n).2.get? g)
    (hg : g.Grown tree' all') (hperm : all'.Perm ((p.alloc n).1 :: all)) :
    Housed ((p.alloc n).2.refill g) (index.insert n.cell.key (p.alloc n).1) tree' all' := by
  refine ⟨?_, ?_, ?_⟩
  · rwa [Pool.get?_refill_of_rows hr]
  · intro i hi m hm
    rw [Pool.get?_refill_of_rows hr] at hm
    obtain ⟨m', hm', hkey⟩ := hr.exists_key hm
    rw [hp.get?_alloc] at hm'
    rw [Std.HashMap.getElem?_insert, ← hkey]
    by_cases he : i = (p.alloc n).1
    · rw [if_pos he] at hm'
      cases hm'
      rw [if_pos (beq_self_eq_true _), he]
    · rw [if_neg he] at hm'
      have hmem : i ∈ all := (List.mem_cons.1 (hperm.mem_iff.1 hi)).resolve_left he
      have hi' := h.indexed i hmem m' hm'
      rw [if_neg, hi']
      rw [beq_iff_eq]
      intro hkey
      rw [hkey, hi'] at hk
      cases hk
  · intro i hi
    rw [Pool.get?_refill_of_rows hr, hr.isSome_iff, hp.get?_alloc] at hi
    by_cases he : i = (p.alloc n).1
    · exact List.mem_cons_of_mem 0 (hperm.mem_iff.2 (he ▸ List.mem_cons_self))
    · rw [if_neg he] at hi
      rcases List.mem_cons.1 (h.occupied i hi) with rfl | hm
      · exact List.mem_cons_self
      · exact List.mem_cons_of_mem 0 (hperm.mem_iff.2 (List.mem_cons_of_mem _ hm))

theorem remove (h : Housed p index tree all) {slot : Nat} {key : Key} {n : Node} {q : Pool Node}
    (hi : index[key]? = some slot) (hr : Nodes.SameRows p.get? g) (hg : g.Grown tree' all')
    (hperm : all.Perm (slot :: all')) (hq : (p.refill g).release? slot = some (n, q)) :
    Housed q (index.erase key) tree' all' := by
  have hget (i : Nat) : q.get? i = if i = slot then none else g i := by
    rw [Pool.get?_release hq, Pool.get?_refill_of_rows hr]
  have hn := hperm.nodup_iff.1 (List.nodup_cons.1 h.grown.nodup).2
  have hslot : slot ∉ 0 :: all' := by
    refine List.not_mem_cons_of_ne_of_not_mem ?_ (List.nodup_cons.1 hn).1
    rintro rfl
    exact h.grown.zero_notMem (hperm.mem_iff.2 List.mem_cons_self)
  refine ⟨hg.congr fun i hi' => (hget i).trans (if_neg ?_), ?_, ?_⟩
  · rintro rfl
    exact hslot hi'
  · intro i hi' m hm
    have hne : i ≠ slot := fun he => hslot (he ▸ List.mem_cons_of_mem 0 hi')
    rw [hget, if_neg hne] at hm
    obtain ⟨m', hm', hkey⟩ := hr.exists_key hm
    have hi'' := h.indexed i (hperm.mem_iff.2 (List.mem_cons_of_mem slot hi')) m' hm'
    rw [← hkey, Std.HashMap.getElem?_erase, if_neg, hi'']
    rw [beq_iff_eq]
    intro hkey
    rw [← hkey, hi] at hi''
    exact hne (Option.some.inj hi'').symm
  · intro i hi'
    rw [hget] at hi'
    split at hi'
    · cases hi'
    · rename_i hne
      rw [hr.isSome_iff] at hi'
      rcases List.mem_cons.1 (h.occupied i hi') with rfl | hm
      · exact List.mem_cons_self
      · exact List.mem_cons_of_mem 0 ((List.mem_cons.1 (hperm.mem_iff.1 hm)).resolve_left hne)

end Housed

namespace LinkedTable

theorem slotOf_congr {w w' : LinkedTable} {rows : List Entry} {p : Position} (hp : p.Within rows)
    (hi : ∀ key, HasKey rows key → w'.index[key]? = w.index[key]?) : w'.slotOf p = w.slotOf p := by
  cases p with
  | beforeFirst => rfl
  | pastEnd => rfl
  | row key => exact hi key hp

theorem map_saved_congr {w w' : LinkedTable} {rows : List Entry} {marks : List Bookmark}
    (hm : ∀ b ∈ marks, b.position.Within rows)
    (hi : ∀ key, HasKey rows key → w'.index[key]? = w.index[key]?) :
    marks.map w'.saved = marks.map w.saved := by
  refine List.map_congr_left fun b hb => ?_
  rw [saved, saved, slotOf_congr (hm b hb) hi]

namespace Represents

variable {w : LinkedTable} {t : Table} {all : List Nat} {f : Focus} {key : Key} {slot : Nat}

theorem predecessor (h : w.Represents t all) (hat : w.nodes.At all f slot) :
    w.predecessor slot = some ((f.step .left).map (·.key)) := by
  obtain ⟨i, hi, hr⟩ := hat.step h.grown.zero_notMem .left
  rw [LinkedTable.predecessor, hi]
  exact h.keyAt hr

theorem index_eq_none (h : w.Represents t all) (hf : t.focus? key = none) :
    w.index[key]? = none := by
  rcases h.key_cases key with ⟨-, hi⟩ | ⟨f, slot, hf'⟩
  · exact hi
  · cases hf.symm.trans hf'.focus

/-- A new node is linked in at the gap to which the other table descends. -/
theorem exists_planted (h : w.Represents t all) (goLeft : Entry → Bool) (e : Entry) :
    ∃ b parent s g₁ g all', w.root = some b ∧ w.nodes.gap goLeft 0 .right b = some (parent, s) ∧
      Nodes.link (w.pool.alloc (.fresh e)).2.get? parent s (some (w.pool.alloc (.fresh e)).1) =
        some g₁ ∧
      g₁.rebalance (w.pool.alloc (.fresh e)).1 =
        some (g, (Tree.plant (t.tree.gap goLeft []) e).rotations) ∧
      Nodes.SameRows (w.pool.alloc (.fresh e)).2.get? g ∧
      g.Grown (Tree.plant (t.tree.gap goLeft []) e).tree all' ∧
      all'.Perm ((w.pool.alloc (.fresh e)).1 :: all) := by
  obtain ⟨b, hb, hroot⟩ := h.exists_root
  obtain ⟨parent, s, hgap, hangs⟩ := hroot.gap goLeft
  have hget : (w.pool.alloc (.fresh e)).2.get? (w.pool.alloc (.fresh e)).1 = some (.fresh e) := by
    rw [h.pool.get?_alloc, if_pos rfl]
  have htree : (plugAll (t.tree.gap goLeft []) .nil).Sound := by
    rw [Tree.plugAll_gap]
    exact h.sound.tree
  have hangs' := hangs.congr fun i hi => h.housed.get?_alloc_of_mem h.pool (.fresh e) hi
  obtain ⟨g₁, g, all', hlink, hbalance, hgrown, hperm⟩ :=
    hangs'.attach h.grown.nodup htree (h.housed.alloc_notMem h.pool _) hget
  have hrows := (Nodes.sameRows_link hlink).trans (Nodes.sameRows_rebalance hbalance)
  exact ⟨b, parent, s, g₁, g, all', hb, hgap, hlink, hbalance, hrows, hgrown, hperm⟩

theorem attach (h : w.Represents t all) (hf : t.focus? key = none) (columns : SortKey)
    (hidden : Bool) :
    ∃ slot w' all', w.attach key columns hidden = some (slot, w') ∧
      w'.Represents (t.attach key columns hidden).2 all' ∧ w'.index[key]? = some slot ∧
      w'.cursor = w.cursor := by
  have hk := h.sound.focus?_eq_none_iff.1 hf
  let e : Entry := ⟨⟨key, columns, t.arrivals⟩, hidden⟩
  let slot := (w.pool.alloc (.fresh e)).1
  obtain ⟨b, parent, s, g₁, g, all', hb, hgap, hlink, hbalance, hrows, hgrown, hperm⟩ :=
    h.exists_planted (fun e => (t.compare columns e.columns).isLT) e
  let w' : LinkedTable := { w with
    pool := (w.pool.alloc (.fresh e)).2.refill g
    index := w.index.insert key slot
    arrivals := t.arrivals + 1
    tally := (t.attach key columns hidden).2.tally }
  have hrun : w.attach key columns hidden = some (slot, w') := by
    rw [LinkedTable.attach, hb]
    simp only [Option.bind_eq_bind, Option.bind_some, h.compare, hgap, h.arrivals]
    rw [hlink]
    simp only [Option.bind_some]
    rw [hbalance]
    simp only [LinkedTable.note, h.tally]
    rfl
  have hother (k : Key) (hk' : HasKey t.entries k) :
      (w.index.insert key slot)[k]? = w.index[k]? := by
    rw [Std.HashMap.getElem?_insert, if_neg]
    rw [beq_iff_eq]
    rintro rfl
    exact hk hk'
  refine ⟨slot, w', all', hrun, ?_, Std.HashMap.getElem?_insert_self, rfl⟩
  exact {
    sound := h.sound.attach key columns hidden hk
    settings := h.settings
    collation := h.collation
    arrivals := rfl
    nextMark := h.nextMark
    tally := rfl
    rows := by
      show Store.mk (w.index.insert key slot) (((w.pool.alloc (.fresh e)).2.refill g).map _) =
        t.store.insert e.toRow
      rw [Pool.map_refill_alloc hrows, ← h.rows,
        show slot = ((w.pool.map (·.cell.toRow)).alloc e.toRow).1 from (Pool.map_alloc _).2]
      rfl
    housed := h.housed.insert h.pool (h.index_eq_none hf) hrows hgrown hperm
    cursor := h.cursor.trans (slotOf_congr h.sound.cursor hother).symm
    bookmarks := h.bookmarks.trans (map_saved_congr h.sound.bookmarks hother).symm }

/-- A cursor on a row that is taken out goes to the row after it. -/
theorem cursor_detach (h : w.Represents t all) (hf : t.focus? f.key = some f)
    (hi : w.index[f.key]? = some slot) (hk : HasKey t.entries f.key) :
    (if w.cursor = some slot then w.after w.cursor else pure w.cursor) =
      some (w.slotOf (t.detach f).cursor) := by
  show _ = some (w.slotOf (if t.cursor = .row f.key then .orEnd (f.step .right) else t.cursor))
  have hon := h.slotOf_eq_iff hk hi h.sound.cursor
  rw [h.cursor]
  by_cases hc : t.cursor = .row f.key
  · rw [if_pos hc, if_pos (hon.2 hc), h.after h.sound.cursor, hc, Table.after, hf]
  · rw [if_neg hc, if_neg (mt hon.1 hc)]
    rfl

theorem detach (h : w.Represents t all) (hf : t.focus? f.key = some f)
    (hi : w.index[f.key]? = some slot) (hat : w.nodes.At all f slot) :
    ∃ w' all', w.detach f.key slot = some w' ∧ w'.Represents (t.detach f) all' := by
  have hs := Focus.splits_self (Table.focus?_some hf)
  have hkey : HasKey t.entries f.key := Table.entries_of_splits hs ▸ hasKey_middle
  have hsound := h.sound.detach hs
  obtain ⟨g, all', hunlink, hgrown, hperm⟩ :=
    hat.unlink h.grown.nodup (by rw [hs.plug]; exact h.sound.tree)
  have hrows : Nodes.SameRows w.pool.get? g := Nodes.sameRows_unlink hunlink
  obtain ⟨n, hn⟩ : ∃ n, (w.pool.refill g).get? slot = some n := by
    rw [Pool.get?_refill_of_rows hrows, ← Option.isSome_iff_exists, hrows.isSome_iff]
    exact h.grown.live (List.mem_cons_of_mem 0 hat.exists_node.1)
  obtain ⟨q, hq⟩ : ∃ q, (w.pool.refill g).release? slot = some (n, q) :=
    ⟨_, Pool.release?_of_get? (hat.ne_zero h.grown.zero_notMem) hn⟩
  have hother (k : Key) (hk : HasKey (t.detach f).entries k) :
      (w.index.erase f.key)[k]? = w.index[k]? := by
    rw [Std.HashMap.getElem?_erase, if_neg]
    rw [beq_iff_eq]
    rintro rfl
    exact h.sound.not_hasKey_detach hs hk
  let w' : LinkedTable := { w with
    pool := q
    index := w.index.erase f.key
    cursor := w.slotOf (t.detach f).cursor
    bookmarks := w.bookmarks.filter (·.position ≠ some slot)
    tally := (t.detach f).tally }
  have hrun : w.detach f.key slot = some w' := by
    rw [LinkedTable.detach, h.cursor_detach hf hi hkey]
    simp only [Option.bind_eq_bind, Option.bind_some]
    rw [hunlink]
    simp only [Option.bind_some, hq, LinkedTable.note, h.tally]
    rfl
  refine ⟨w', all', hrun, ?_⟩
  exact {
    sound := hsound
    settings := h.settings
    collation := h.collation
    arrivals := h.arrivals
    nextMark := h.nextMark
    tally := rfl
    rows := by
      show Store.mk (w.index.erase f.key) (q.map (·.cell.toRow)) = t.store.erase f.key
      have hmap := Pool.map_release (p := w.pool.refill g) (f := (·.cell.toRow)) slot
      rw [hq, Pool.map_refill_of_rows hrows] at hmap
      rw [← h.rows, LinkedTable.rows, Store.erase, hi]
      simp only [hmap, Option.map_some]
    housed := h.housed.remove hi hrows hgrown hperm hq
    cursor := (slotOf_congr hsound.cursor hother).symm
    bookmarks := by
      refine Eq.trans ?_ (map_saved_congr hsound.bookmarks hother).symm
      show w.bookmarks.filter (·.position ≠ some slot) =
        (t.bookmarks.filter (·.position ≠ .row f.key)).map w.saved
      rw [h.bookmarks, List.filter_map]
      refine congrArg (List.map w.saved) (List.filter_congr fun b hb => ?_)
      have hon := h.slotOf_eq_iff hkey hi (h.sound.bookmarks b hb)
      exact decide_eq_decide.2 (not_congr hon) }

/-! ## Commands -/

theorem predecessor_of_index (h : w.Represents t all) (hi : w.index[key]? = some slot) :
    w.predecessor slot = some (t.predecessor key) := by
  rcases h.key_cases key with ⟨-, hi'⟩ | ⟨f, slot', hf⟩
  · cases hi'.symm.trans hi
  · cases hf.index.symm.trans hi
    rw [h.predecessor hf.lies, Table.predecessor, hf.focus]
    rfl

/-- A row is taken out and brought to another place; a cursor on it goes along. -/
theorem resort (h : w.Represents t all) (hf : t.focus? f.key = some f)
    (hi : w.index[f.key]? = some slot) (hat : w.nodes.At all f slot) (columns : SortKey)
    (hidden : Bool) :
    ∃ without slot' moved all', w.detach f.key slot = some without ∧
      without.attach f.key columns hidden = some (slot', moved) ∧
      moved.index[f.key]? = some slot' ∧
      ({ moved with cursor := if w.cursor = some slot then some slot' else moved.cursor } :
        LinkedTable).Represents (t.resort f f.key columns hidden) all' := by
  have hs := Focus.splits_self (Table.focus?_some hf)
  have hkey : HasKey t.entries f.key := Table.entries_of_splits hs ▸ hasKey_middle
  obtain ⟨without, all₁, hdetach, hwithout⟩ := h.detach hf hi hat
  have hnone : (t.detach f).focus? f.key = none :=
    hwithout.sound.focus?_eq_none_iff.2 (h.sound.not_hasKey_detach hs)
  obtain ⟨slot', moved, all', hattach, hmoved, hslot, -⟩ := hwithout.attach hnone columns hidden
  refine ⟨without, slot', moved, all', hdetach, hattach, hslot, ?_⟩
  have hcursor : (if w.cursor = some slot then some slot' else moved.cursor) =
      moved.slotOf t.cursor := by
    have hon : w.cursor = some slot ↔ t.cursor = .row f.key := by
      rw [h.cursor]
      exact h.slotOf_eq_iff hkey hi h.sound.cursor
    have hleft : (t.detach f).cursor =
        if t.cursor = .row f.key then .orEnd (f.step .right) else t.cursor := rfl
    by_cases hc : t.cursor = .row f.key
    · rw [if_pos (hon.2 hc), hc]
      exact hslot.symm
    · rw [if_neg (mt hon.1 hc), hmoved.cursor]
      show moved.slotOf (t.detach f).cursor = _
      rw [hleft, if_neg hc]
  rw [hcursor]
  exact hmoved.moveTo (h.sound.resort hs columns hidden).cursor

theorem put (h : w.Represents t all) (key : Key) (columns : SortKey) (hidden : Bool) :
    Agrees Matches (w.put key columns hidden) (t.put key columns hidden) := by
  rw [LinkedTable.put, Table.put]
  by_cases hr : key = .reserved
  · rw [if_pos hr, if_pos hr]
    exact .error _
  rw [if_neg hr, if_neg hr]
  rcases h.key_cases key with ⟨hf, hi⟩ | ⟨f, slot, hf, rfl, -, hi, hat⟩
  · obtain ⟨slot, w', all', hattach, hw', hslot, -⟩ := h.attach hf columns hidden
    have hadded := hw'.note .added
    simp only [hf, hi]
    refine .lift hattach (.lift (hadded.predecessor_of_index hslot) (.ok ⟨rfl, all', hadded⟩))
  · obtain ⟨-, n, _, _, get, holds, -, -⟩ := hat.exists_node
    simp only [hf, hi]
    refine .lift get ?_
    rw [holds.cell, h.compare]
    by_cases ha : t.compare f.entry.columns columns = .eq ∧ t.compare columns f.entry.columns = .eq
    · have halike : t.alike f.entry.columns columns = true := by simpa [Table.alike] using ha
      rw [if_pos halike]
      refine (if_pos ha).symm ▸ .lift (h.predecessor hat) (.ok ⟨rfl, all, h.note .unchanged⟩)
    · have halike : t.alike f.entry.columns columns ≠ true := by simpa [Table.alike] using ha
      rw [if_neg halike]
      obtain ⟨without, slot', moved, all', hdetach, hattach, hslot, hw'⟩ :=
        h.resort hf hi hat columns hidden
      have hmoved := hw'.note .modified
      have hlast := hmoved.predecessor_of_index hslot
      exact (if_neg ha).symm ▸ .lift hdetach (.lift hattach (.lift hlast (.ok ⟨rfl, all', hmoved⟩)))

theorem erase (h : w.Represents t all) (key : Key) :
    Agrees StandsFor (w.erase key) (t.erase key) := by
  rw [LinkedTable.erase, Table.erase]
  refine (h.lookup key).bind ?_
  rintro slot f ⟨hf, rfl, -, hi, hat⟩
  obtain ⟨w', all', hdetach, hw'⟩ := h.detach hf hi hat
  exact .lift hdetach (.ok ⟨all', hw'.note .deleted⟩)

theorem setColumn (h : w.Represents t all) (key : Key) (index : Nat) (column : Column) :
    Agrees Matches (w.setColumn key index column) (t.setColumn key index column) := by
  rw [LinkedTable.setColumn, LinkedTable.lookup]
  rcases h.key_cases key with ⟨hf, hi⟩ | ⟨f, slot, hf, -, -, hi, hat⟩
  · rw [Table.setColumn_of_none hf, hi]
    exact .error _
  · obtain ⟨-, n, _, _, get, holds, -, -⟩ := hat.exists_node
    simp only [hi, pure_bind]
    refine .lift get ?_
    simp only [holds.cell]
    by_cases hle : f.cell.columns.length ≤ index
    · rw [Table.setColumn_of_le hf hle, if_pos hle]
      exact .error _
    · rw [Table.setColumn_of_lt hf (Nat.not_le.1 hle), if_neg hle]
      refine (h.put key _ f.entry.hidden).map ?_
      rintro a b ⟨he, hw⟩
      exact .ok ⟨congrArg (Recolumned.mk · f.entry.hidden) he, hw⟩

theorem clear (h : w.Represents t all) : w.clear.Represents t.clear [] where
  sound := h.sound.clear
  settings := h.settings
  collation := h.collation
  arrivals := h.arrivals
  nextMark := h.nextMark
  tally := h.tally
  rows := by
    obtain ⟨n, hn, hground, -⟩ := h.grown.laid
    have hzero : t.store.pool.get? 0 = some .ground := by
      rw [← h.rows]
      exact Pool.get?_map.trans ((congrArg (Option.map _) hn).trans
        (congrArg (fun e : Entry => some e.toRow) hground.entry))
    show Store.mk ∅ ((Pool.withGround Node.above).map (·.cell.toRow)) = ⟨∅, t.store.pool.clear⟩
    rw [Pool.clear_eq hzero, Pool.map_withGround]
    rfl
  housed := housed_ground
  cursor := rfl
  bookmarks := rfl

end Represents

end LinkedTable

end LiveTable
