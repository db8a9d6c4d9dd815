import LiveTable.Proofs.Linked.Represents
import LiveTable.Proofs.Table.Reachable

/-!
# Cursor, reads and bookmarks of linked tables

Calls that move the cursor, that read, and that make or drop bookmarks touch no node. Each of them
comes to the same answer on the links as on the tree, and to a position with the same slot.
-/

namespace LiveTable.LinkedTable.Represents

variable {w : LinkedTable} {t : Table} {all : List Nat} (h : w.Represents t all)
include h

/-! ## Moving the cursor -/

theorem currentRank : w.rankOf w.cursor = some t.currentRank := by
  rw [h.cursor, h.rankOf h.sound.cursor]
  rfl

theorem bookmark (mark : Mark) :
    Agrees (fun s b => s = w.saved b ∧ b ∈ t.bookmarks) (w.bookmark mark) (t.bookmark mark) := by
  have hmark : (fun s : SavedSlot => decide (s.mark = mark)) ∘ w.saved =
      fun b => decide (b.mark = mark) := rfl
  rw [LinkedTable.bookmark, Table.bookmark, h.bookmarks, List.find?_map, hmark]
  cases hb : t.bookmarks.find? (·.mark = mark) with
  | none => exact .error _
  | some b => exact .ok ⟨rfl, List.mem_of_find?_eq_some hb⟩

theorem resolve (mark : Mark) : Agrees (· = ·) (w.resolve mark) (t.resolve mark) := by
  rw [LinkedTable.resolve, Table.resolve]
  refine (h.bookmark mark).bind fun s b ⟨hs, hb⟩ => ?_
  subst hs
  exact .lift (h.rankOf (h.sound.bookmarks b hb)) (.ok rfl)

theorem origin (o : Origin) : Agrees (· = ·) (w.origin o) (t.origin o) := by
  cases o with
  | start => exact .ok rfl
  | current => exact .lift h.currentRank (.ok rfl)
  | finish => exact .lift h.visible (.ok rfl)
  | bookmark mark => exact h.resolve mark

theorem seek (o : Origin) (offset : Int) : Agrees Matches (w.seek o offset) (t.seek o offset) := by
  rw [LinkedTable.seek, Table.seek]
  refine (h.origin o).bind fun start _ he => .lift h.visible ?_
  subst he
  by_cases hv : t.visible = 0
  · simp only [if_pos hv]
    exact .ok ⟨rfl, all, (h.moveTo (p := .beforeFirst) trivial).note .sought⟩
  · simp only [if_neg hv]
    exact .lift (h.select _) (.ok ⟨rfl, all, (h.moveTo (h.sound.select_within _)).note .sought⟩)

theorem goTo (key : Key) : Agrees StandsFor (w.goTo key) (t.goTo key) := by
  rw [LinkedTable.goTo, Table.goTo]
  refine (h.lookup key).bind ?_
  rintro slot f ⟨hf, rfl, -, hi, -⟩
  refine .ok ⟨all, ?_⟩
  have hkey : (Position.row f.key).Within t.entries := by
    obtain ⟨hs, -⟩ := h.sound.splits_of_focus? hf
    exact ⟨f.entry, Table.mem_of_splits hs, rfl⟩
  have hmove := h.moveTo hkey
  rwa [show w.slotOf (.row f.key) = some slot from hi] at hmove

theorem exists_bound (probe : SortKey) :
    ∃ o, w.bound probe = some o ∧ w.nodes.Lands all (t.bound probe) o := by
  obtain ⟨b, hb, hangs⟩ := h.exists_root
  have hnone : w.nodes.Lands all none none := rfl
  obtain ⟨o, ho, hl⟩ := hangs.bound (fun e => (t.compare e.columns probe).isLT) hnone
  refine ⟨o, ?_, hl⟩
  rw [LinkedTable.bound, hb, h.compare]
  exact ho

theorem lowerBound (probe : SortKey) :
    ∃ o, w.bound probe = some o ∧
      ({ w with cursor := o } : LinkedTable).Represents (t.lowerBound probe) all := by
  obtain ⟨o, ho, hl⟩ := h.exists_bound probe
  cases h.lands hl
  exact ⟨_, ho, h.moveTo (t.lowerBound_within probe)⟩

theorem find? (probe : SortKey) : w.find? probe = some (t.find? probe) := by
  obtain ⟨o, ho, hl⟩ := h.exists_bound probe
  rw [LinkedTable.find?, ho, Table.find?]
  simp only [Option.bind_eq_bind, Option.bind_some]
  cases hf : t.bound probe with
  | none =>
    rw [hf] at hl
    cases hl
    rfl
  | some f =>
    rw [hf] at hl
    obtain ⟨slot, rfl, hat⟩ := hl
    obtain ⟨-, n, _, _, get, holds, -, -⟩ := hat.exists_node
    simp only [get, Option.bind_some, holds.cell, h.compare]
    rw [Option.filter_some]
    show _ = some (Option.map Focus.key
      (if (!(t.compare probe f.cell.columns).isLT) = true then some f else none))
    cases (t.compare probe f.cell.columns).isLT <;> rfl

/-! ## Reading -/

theorem get (key : Key) : Agrees (· = ·) (w.get key) (t.get key) := by
  rw [LinkedTable.get, Table.get]
  refine (h.lookup key).map fun slot f hf => ?_
  obtain ⟨-, n, _, _, get, holds, -, -⟩ := hf.lies.exists_node
  refine .lift get (.ok ?_)
  rw [holds.cell]
  rfl

theorem family (key : Key) : Agrees (· = ·) (w.family key) (t.family key) := by
  rw [LinkedTable.family, Table.family]
  refine (h.lookup key).bind fun slot f hf => ?_
  obtain ⟨-, n, _, _, get, holds, -, -⟩ := hf.lies.exists_node
  refine .lift get (.of_eq_some ?_ rfl)
  rw [h.isUnder, holds.cell]
  have hreaches : w.nodes.Reaches all (some f) slot := hf.lies
  exact hreaches.keysWhile h.grown.zero_notMem _

theorem visibleBefore (key : Key) :
    Agrees (· = ·) (w.visibleBefore key) (t.visibleBefore key) := by
  rw [LinkedTable.visibleBefore, Table.visibleBefore]
  refine (h.lookup key).bind fun slot f hf => ?_
  obtain ⟨i, hi, hr⟩ := hf.lies.step h.grown.zero_notMem .left
  obtain ⟨j, hj, hv⟩ := hr.skipHidden h.grown.zero_notMem .left
  exact .lift hi (.lift hj (.of_eq_some (h.keyAt hv) rfl))

theorem readStart (backward : Bool) :
    w.readStart backward = some (w.slotOf (t.readStart backward)) := by
  obtain ⟨b, hb, hangs⟩ := h.exists_root
  have hcursor := h.cursor
  have hwithin := h.sound.cursor
  rw [LinkedTable.readStart, hb]
  simp only [Option.bind_eq_bind, Option.bind_some]
  cases hc : t.cursor with
  | pastEnd =>
    rw [hc] at hcursor
    rw [hcursor]
    cases backward with
    | false => simp [Table.readStart, hc, slotOf]
    | true =>
      rw [if_pos ⟨rfl, rfl⟩, show t.readStart true = t.before .pastEnd by simp [Table.readStart, hc]]
      exact h.before (p := .pastEnd) trivial
  | beforeFirst =>
    rw [hc] at hcursor
    rw [hcursor]
    cases backward with
    | true => simp [Table.readStart, hc, slotOf]
    | false =>
      by_cases hnil : t.tree = .nil
      · cases hangs.eq_nil_iff.1 hnil
        simp [Table.readStart, hc, hnil, slotOf]
      · obtain ⟨top, rfl⟩ := Option.ne_none_iff_exists'.1 (mt hangs.eq_nil_iff.2 hnil)
        have hafter := h.after (p := .beforeFirst) trivial
        simpa [Table.readStart, hc, hnil, slotOf] using hafter
  | row key =>
    rw [hc] at hcursor hwithin
    obtain ⟨f, slot, hf⟩ := h.exists_found hwithin
    rw [hcursor]
    cases backward <;> simp [Table.readStart, hc, slotOf, hf.index, hf.ne_zero h]

theorem gather (r : Reading) :
    w.gather (Table.sideOf r) (Table.wants r) (t.most r) (w.slotOf (t.readStart r.backward)) =
      some ((t.passage r).1.map (·.key), w.slotOf (t.readStop r)) := by
  have hwithin := h.sound.readStart_within r.backward
  have hnone : (LiveTable.gather (Table.sideOf r) (Table.wants r) (t.most r) none).1 = [] := by
    rw [gather_rows]
    simp [reach]
  rw [Table.readStop, Table.passage]
  cases hs : t.readStart r.backward with
  | beforeFirst =>
    show _ = some (List.map _ (LiveTable.gather _ _ _ none).1, _)
    rw [hnone]
    rfl
  | pastEnd =>
    show _ = some (List.map _ (LiveTable.gather _ _ _ none).1, _)
    rw [hnone]
    rfl
  | row key =>
    rw [hs] at hwithin
    obtain ⟨f, slot, hf⟩ := h.exists_found hwithin
    have hreaches : w.nodes.Reaches all (some f) slot := hf.lies
    obtain ⟨stop, hgather, hstop⟩ := hreaches.gather h.grown.zero_notMem (Table.sideOf r)
      (Table.wants r) (t.most r)
    rw [slotOf, hf.index, LinkedTable.gather, if_neg (hf.ne_zero h), hgather]
    simp only [Option.map_some, Table.at?, hf.focus]
    refine congrArg (fun p => some (_, p)) ?_
    have hright (hb : r.backward = false) : Table.sideOf r = .right := by rw [Table.sideOf, hb]; rfl
    have hleft (hb : r.backward = true) : Table.sideOf r = .left := by rw [Table.sideOf, hb]; rfl
    cases hb : r.backward with
    | false =>
      rw [hright hb] at hstop ⊢
      exact h.landing_right hstop
    | true =>
      rw [hleft hb] at hstop ⊢
      exact h.landing_left hstop

theorem read (r : Reading) : ∃ x, w.read r = some x ∧ Matches x (t.read r) := by
  have hmost : min r.count (if r.hidden then w.size else t.visible) = t.most r := by
    rw [h.size]
    rfl
  have hgather := h.gather r
  refine ⟨((t.passage r).1.map (·.key),
    if r.advance then { w with cursor := w.slotOf (t.readStop r) } else w), ?_, rfl, all, ?_⟩
  · rw [LinkedTable.read, h.readStart, h.visible]
    simp only [Option.bind_eq_bind, Option.bind_some, hmost]
    rw [show w.gather (if r.backward then .left else .right)
      (fun e => r.hidden || e.isVisible) (t.most r) _ = _ from hgather]
    rfl
  · show LinkedTable.Represents _ (if r.advance then { t with cursor := t.readStop r } else t) all
    split
    · exact h.moveTo (h.sound.readStop_within r)
    · exact h

/-! ## Bookmarks -/

theorem createBookmark : Agrees Matches w.createBookmark t.createBookmark := by
  rw [LinkedTable.createBookmark, Table.createBookmark]
  simp only [h.settings, h.nextMark, h.bookmarks, List.length_map]
  by_cases hfull : t.settings.bookmarkLimit ≤ t.bookmarks.length ∨ t.nextMark = Table.lastMark
  · rw [if_pos hfull, if_pos hfull]
    exact .error _
  · rw [if_neg hfull, if_neg hfull]
    refine .lift h.currentRank (.ok ⟨rfl, all, ?_⟩)
    have hsound : ∀ b ∈ t.bookmarks ++ [⟨⟨t.nextMark⟩, t.cursor, t.currentRank⟩],
        b.position.Within t.entries := by
      intro b hb
      rcases List.mem_append.1 hb with hb | hb
      · exact h.sound.bookmarks b hb
      · cases List.mem_singleton.1 hb
        exact h.sound.cursor
    refine Represents.note ?_ .bookmarked
    exact { h with
      sound := { h.sound with bookmarks := hsound }
      settings := rfl
      nextMark := rfl
      bookmarks := by
        show t.bookmarks.map w.saved ++ [⟨⟨t.nextMark⟩, w.cursor, t.currentRank⟩] =
          (t.bookmarks ++ [_]).map w.saved
        rw [List.map_append, h.cursor]
        rfl }

theorem freeBookmark (mark : Mark) :
    Agrees StandsFor (w.freeBookmark mark) (t.freeBookmark mark) := by
  rw [LinkedTable.freeBookmark, Table.freeBookmark]
  refine (h.bookmark mark).bind ?_
  rintro _ b ⟨rfl, -⟩
  refine .ok ⟨all, ?_⟩
  exact { h with
    sound := { h.sound with
      bookmarks := fun b hb => h.sound.bookmarks b (List.mem_filter.1 hb).1 }
    bookmarks := by
      show w.bookmarks.filter (·.mark ≠ b.mark) = (t.bookmarks.filter (·.mark ≠ b.mark)).map w.saved
      rw [h.bookmarks, List.filter_map]
      rfl }

end LiveTable.LinkedTable.Represents
