import LiveTable.Proofs.Table.Answers

/-!
# The row before, by rank

The nearest visible row before a row is found by steps from row to row, back over hidden ones. The
other way to it is by rank: the rank of a row is summed up on the way to the root, and the row of a
rank is looked for on the way down. Both ways come to the same row
(`neighbourByRank_of_reachable`), since the last visible row of those before a row has all the
others before it (`rankedAt_of_find?`).
-/

namespace LiveTable

variable {xs : List Entry} {a : Entry}

theorem RankedAt.lt {rows : List Entry} {rank : Nat} (h : RankedAt rows rank a) :
    rank < visibleCount rows := by
  obtain ⟨xs, ys, rfl, hv, rfl⟩ := h
  have hw : a.weight = 1 := by simp [Entry.weight, hv]
  rw [visibleCount_append, visibleCount_cons]
  omega

theorem rankedAt_of_find? (h : xs.reverse.find? (·.isVisible) = some a) (ys : List Entry) :
    ∃ rank, visibleCount xs = rank + 1 ∧ RankedAt (xs ++ ys) rank a := by
  obtain ⟨hvisible, passed, rest, hsplit, hhidden⟩ := List.find?_eq_some_iff_append.1 h
  have hxs : xs = rest.reverse ++ a :: passed.reverse := by
    rw [← List.reverse_reverse xs, hsplit]
    simp
  have hpassed : visibleCount passed = 0 :=
    List.countP_eq_zero.2 fun b hb => by simpa using hhidden b hb
  have hv : a.hidden = false := by simpa [Entry.isVisible] using hvisible
  have hw : a.weight = 1 := by simp [Entry.weight, hv]
  refine ⟨visibleCount rest.reverse, ?_, rest.reverse, passed.reverse ++ ys, ?_, hv, rfl⟩
  · rw [hxs, visibleCount_append, visibleCount_cons, hw, visibleCount_reverse passed, hpassed]
  · simp [hxs]

theorem find?_reverse_eq_none_iff :
    xs.reverse.find? (·.isVisible) = none ↔ visibleCount xs = 0 := by
  simp [visibleCount, List.countP_eq_zero]

namespace Table

/-- The nearest visible row before a row, told by ranks. -/
structure NeighbourByRank (t : Table) (key : Key) : Prop where
  /-- The cursor may be put on the row, hidden or not. -/
  stands : t.perform (.goTo key) = (.ok .done, { t with cursor := .row key })
  /-- Asking for the row before changes nothing, and the cursor stays where it was. -/
  asks : (t.perform (.visibleBefore key)).2 = t
  /-- There is no row before exactly where the rank is zero. -/
  none_iff : (t.perform (.visibleBefore key)).1 = .ok (.key none) ↔
    (t.perform (.goTo key)).2.currentRank = 0
  /-- Otherwise it is the visible row one rank back, the only one of that rank, and a seek from the
  row leads to it. -/
  before (rank : Nat) : (t.perform (.goTo key)).2.currentRank = rank + 1 →
    ∃ a, (t.perform (.visibleBefore key)).1 = .ok (.key (some a.key)) ∧
      RankedAt t.entries rank a ∧ (∀ other, RankedAt t.entries rank other → other = a) ∧
      t.replies [.goTo key, .seek .current (-1)] = [.ok .done, .ok (.travelled ⟨-1, false⟩)] ∧
      (t.run [.goTo key, .seek .current (-1)]).cursor = .row a.key

variable {t : Table} {key : Key}

theorem Sound.perform_seek_back (h : t.Sound) {rank : Nat} (hr : t.currentRank = rank + 1)
    (ha : RankedAt t.entries rank a) :
    ∃ t', t.perform (.seek .current (-1)) = (.ok (.travelled ⟨-1, false⟩), t') ∧
      t'.cursor = .row a.key := by
  have hlt := ha.lt
  have htarget : t.target t.currentRank (-1) = rank := by
    unfold target
    rw [h.visible_eq, hr]
    omega
  have hseek :=
    perform_seek_of_ok (show t.origin .current = .ok ⟨t.currentRank, false⟩ from rfl) (-1)
  obtain ⟨e, hcursor, hranked, -⟩ :=
    (h.lands_select (show (0 : Int) ≤ rank by omega)).on_row (by omega)
  rw [htarget, hcursor, hr, show (rank : Int) - (rank + 1 : Nat) = -1 by omega] at hseek
  refine ⟨_, hseek, ?_⟩
  rw [← hranked.unique ha]
  rfl

theorem neighbourByRank_of_reachable (h : t.Reachable) (hk : HasKey t.entries key) :
    t.NeighbourByRank key := by
  have hs := h.sound
  obtain ⟨xs, e, ys, he, rfl⟩ := hk.split
  obtain ⟨f, hf, hsplits⟩ := hs.focus? he
  have hgoTo : t.perform (.goTo e.key) = (.ok .done, { t with cursor := .row e.key }) := by
    rw [perform_of_ok (c := .goTo e.key) (congrArg (Except.map _) (goTo_of_some hf)),
      hsplits.key_eq]
  have hrank : (t.perform (.goTo e.key)).2.currentRank = visibleCount xs := by
    rw [hgoTo]
    exact hs.rankOf_row he
  have hasked : t.perform (.visibleBefore e.key) =
      (.ok (.key ((xs.reverse.find? (·.isVisible)).map (·.key))), t) :=
    perform_of_ok (congrArg (Except.map _) (hs.visibleBefore_split he))
  refine ⟨hgoTo, congrArg Prod.snd hasked, ?_, fun rank hr => ?_⟩
  · rw [hrank, hasked, ← find?_reverse_eq_none_iff]
    simp
  · have hstanding : ({ t with cursor := .row e.key } : Table).Sound :=
      hs.moveTo (he ▸ hasKey_middle)
    cases ha : xs.reverse.find? (·.isVisible) with
    | none =>
      have := find?_reverse_eq_none_iff.1 ha
      omega
    | some a =>
      obtain ⟨rank', hcount, hranked⟩ := rankedAt_of_find? ha (e :: ys)
      obtain rfl : rank' = rank := by omega
      rw [← he] at hranked
      rw [ha] at hasked
      rw [hgoTo] at hr
      obtain ⟨t', hseek, hcursor⟩ := hstanding.perform_seek_back hr hranked
      refine ⟨a, congrArg Prod.fst hasked, hranked, fun other ho => ho.unique hranked, ?_, ?_⟩
      · simp only [replies, hgoTo, hseek]
      · simp only [run_cons, run_nil, hgoTo, hseek, hcursor]

/-- A visible row among hidden ones, with the cursor past the end. -/
def amongHidden : Table :=
  (empty {} .bytewise).run [.put ⟨1, 1⟩ [Column.binary [0]] true,
    .put ⟨1, 2⟩ [Column.binary [1]] false, .put ⟨1, 3⟩ [Column.binary [2]] true,
    .put ⟨1, 4⟩ [Column.binary [3]] true, .seek .finish 0]

/-- From the last hidden row both ways lead to the visible one. -/
theorem neighbourByRank_amongHidden :
    amongHidden.Reachable ∧ HasKey amongHidden.entries ⟨1, 4⟩ ∧
      (amongHidden.perform (.goTo ⟨1, 4⟩)).2.currentRank = 1 ∧
      (amongHidden.perform (.visibleBefore ⟨1, 4⟩)).1 = .ok (.key (some ⟨1, 2⟩)) ∧
      (amongHidden.run [.goTo ⟨1, 4⟩, .seek .current (-1)]).cursor = .row ⟨1, 2⟩ := by
  have hreachable : amongHidden.Reachable := ⟨{}, .bytewise, _, rfl, rfl⟩
  have hkeys : amongHidden.entries.map (·.key) = [⟨1, 1⟩, ⟨1, 2⟩, ⟨1, 3⟩, ⟨1, 4⟩] := by cbv
  have hk : HasKey amongHidden.entries ⟨1, 4⟩ :=
    List.mem_map.1 (show (⟨1, 4⟩ : Key) ∈ amongHidden.entries.map (·.key) by simp [hkeys])
  have hrank : (amongHidden.perform (.goTo ⟨1, 4⟩)).2.currentRank = 1 := by cbv
  have hreply : (amongHidden.perform (.visibleBefore ⟨1, 4⟩)).1 = .ok (.key (some ⟨1, 2⟩)) := by
    cbv
  obtain ⟨a, hbefore, -, -, -, hcursor⟩ :=
    (neighbourByRank_of_reachable hreachable hk).before 0 hrank
  rw [hreply] at hbefore
  simp only [Except.ok.injEq, Reply.key.injEq, Option.some.injEq] at hbefore
  exact ⟨hreachable, hk, hrank, hreply, hbefore ▸ hcursor⟩

end Table

end LiveTable
