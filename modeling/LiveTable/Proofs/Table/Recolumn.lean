import LiveTable.Proofs.Table.Failure

/-!
# Replacing a column

A column of a row is replaced by putting the row once more with its changed sort key. If the new
sort key is not equal to the old one, the row has it from then on. If it is equal, compared either
way, the row is left alone with the sort key that it had, although the columns may differ in what a
comparison does not see: zeros in their sign (`setColumn_minus_zero`), or a column in its direction.
The other rows are read as before and stand in the same order (`recolumns_of_reachable`).
-/

namespace LiveTable.Table

variable {t t' : Table} {e : Entry} {key other : Key}

/-! ## Reading a row -/

theorem Sound.get_eq (h : t.Sound) (key : Key) :
    t.get key = match t.row? key with
      | some e => .ok e.snapshot
      | none => .error (.notFound key) := by
  rw [h.row?_eq, get]
  cases hf : t.focus? key with
  | none =>
    rw [lookup_of_none hf]
    rfl
  | some f =>
    rw [lookup_of_some hf]
    rfl

theorem Sound.get_of_mem (h : t.Sound) (he : e ∈ t.entries) : t.get e.key = .ok e.snapshot := by
  rw [h.get_eq, row?, h.distinct.find?_eq he]

theorem Sound.get_eq_of_others (h : t.Sound) (h' : t'.Sound) (hk : key ≠ other)
    (hrows : t'.entries.filter (·.key ≠ other) = t.entries.filter (·.key ≠ other)) :
    t'.get key = t.get key := by
  have hfind (t : Table) :
      t.row? key = (t.entries.filter (·.key ≠ other)).find? (·.key = key) := by
    rw [List.find?_filter, row?]
    refine congrArg (List.find? · t.entries) (funext fun e => ?_)
    by_cases he : e.key = key
    · simp [he, hk]
    · simp [he]
  rw [h'.get_eq, h.get_eq, hfind t', hfind t, hrows]

/-! ## Putting a row that is there -/

section

variable {columns : SortKey} {hidden : Bool} {p : Placement}

theorem Sound.put_others (h : t.Sound) (hp : t.put key columns hidden = .ok (p, t')) :
    t'.entries.filter (·.key ≠ key) = t.entries.filter (·.key ≠ key) := by
  obtain ⟨xs, a, ys, he, rfl, -, hothers⟩ := h.put_predecessor hp
  have hd := (h.of_put hp).distinct
  rw [he] at hd ⊢
  rw [hd.filter_ne, hothers]

/-- A row that is there has its new sort key, unless it is equal to the old one. -/
theorem Sound.put_present (h : t.Sound) (he : e ∈ t.entries) (hr : e.key ≠ .reserved)
    (columns : SortKey) (hidden : Bool) :
    ∃ p t', t.put e.key columns hidden = .ok (p, t') ∧ p.outcome = .modified ∧
      (t.alike e.columns columns = true → t' = t.note .unchanged) ∧
      t'.get e.key = .ok
        (if t.alike e.columns columns then e.snapshot else ⟨e.key, columns, hidden⟩) := by
  obtain ⟨xs, ys, hrows⟩ := List.append_of_mem he
  obtain ⟨f, hf, hs⟩ := h.focus? hrows
  rcases t.put_cases e.key columns hidden with ⟨hk, -⟩ | ⟨-, hnone, -⟩ | ⟨g, -, hg, ha, hput⟩ |
    ⟨g, -, hg, ha, hput⟩
  · exact absurd hk hr
  · rw [hf] at hnone
    cases hnone
  · cases hf.symm.trans hg
    rw [hs.entry] at ha
    refine ⟨_, _, hput, rfl, fun _ => rfl, ?_⟩
    rw [ha, if_pos rfl]
    exact (h.note .unchanged).get_of_mem he
  · cases hf.symm.trans hg
    rw [hs.entry] at ha
    refine ⟨_, _, hput, rfl, fun halike => ?_, ?_⟩
    · rw [ha] at halike
      cases halike
    · rw [ha, if_neg (by decide)]
      have hnew : t.newEntry e.key columns hidden ∈ (t.resort f e.key columns hidden).entries := by
        rw [entries_resort]
        exact mem_middle.2 (.inl rfl)
      exact ((h.resort hs columns hidden).note .modified).get_of_mem hnew

end

/-! ## Replacing a column -/

/-- What replacing a column of the row `e` makes of a table, if it changes the sort key of the row
to `columns`. -/
structure Recolumns (t : Table) (e : Entry) (columns : SortKey) (r : Recolumned) (t' : Table) :
    Prop where
  outcome : r.outcome = .modified
  hidden : r.hidden = e.hidden
  get : t'.get e.key =
    .ok ⟨e.key, if t.alike e.columns columns then e.columns else columns, e.hidden⟩
  alike : t.alike e.columns columns = true → t' = t.note .unchanged
  get_other (key : Key) : key ≠ e.key → t'.get key = t.get key
  others : t'.entries.filter (·.key ≠ e.key) = t.entries.filter (·.key ≠ e.key)

/-- A column that a row has can be replaced, and is, unless the row is equal to what it would be. -/
theorem recolumns_of_reachable (h : t.Reachable) (he : e ∈ t.entries) {index : Nat}
    (hi : index < e.columns.length) (column : Column) :
    ∃ r t', t.perform (.setColumn e.key index column) = (.ok (.recolumned r), t') ∧
      t.Recolumns e (e.columns.set index column) r t' := by
  have hs := h.sound
  have hr : e.key ≠ .reserved := fun hk => h.unreserved ⟨e, he, hk⟩
  obtain ⟨xs, ys, hrows⟩ := List.append_of_mem he
  obtain ⟨f, hf, hsplit⟩ := hs.focus? hrows
  obtain ⟨p, t', hput, houtcome, halike, hget⟩ :=
    hs.put_present he hr (e.columns.set index column) e.hidden
  have hset : t.setColumn e.key index column = .ok (⟨p, e.hidden⟩, t') := by
    rw [setColumn_of_lt hf (by rwa [hsplit.entry]), hsplit.entry, hput]
    rfl
  refine ⟨⟨p, e.hidden⟩, t', perform_of_ok (congrArg (Except.map _) hset), houtcome, rfl, ?_,
    halike, fun key hk => hs.get_eq_of_others (hs.of_put hput) hk (hs.put_others hput),
    hs.put_others hput⟩
  rw [hget]
  split <;> rfl

/-- Four rows with three columns each, of which the third one is hidden. -/
def threeColumns : Table :=
  let row (a : UInt8) (x : UInt64) (b : UInt8) : SortKey :=
    [Column.binary [a], Column.float ⟨x⟩, Column.binary [b]]
  (empty {} .bytewise).run [.put ⟨1, 1⟩ (row 1 0 5) false,
    .put ⟨1, 2⟩ (row 2 0x3ff0000000000000 5) false,
    .put ⟨1, 3⟩ (row 2 0x4000000000000000 6) true, .put ⟨1, 4⟩ (row 3 0 5) false]

/-- The column in the middle of a hidden row is replaced by one that sorts downwards. -/
theorem recolumns_threeColumns :
    threeColumns.Reachable ∧
      (⟨⟨⟨1, 3⟩, [Column.binary [2], Column.float ⟨0x4000000000000000⟩, Column.binary [6]], 2⟩,
        true⟩ : Entry) ∈ threeColumns.entries ∧
      ∃ r t', threeColumns.perform (.setColumn ⟨1, 3⟩ 1 (Column.float ⟨0⟩).down) =
          (.ok (.recolumned r), t') ∧
        r.hidden = true ∧
        t'.get ⟨1, 3⟩ =
          .ok ⟨⟨1, 3⟩, [Column.binary [2], (Column.float ⟨0⟩).down, Column.binary [6]], true⟩ ∧
        t'.get ⟨1, 2⟩ = .ok ⟨⟨1, 2⟩,
          [Column.binary [2], Column.float ⟨0x3ff0000000000000⟩, Column.binary [5]], false⟩ ∧
        (t'.entries.filter (·.key ≠ ⟨1, 3⟩)).map (·.key) = [⟨1, 1⟩, ⟨1, 2⟩, ⟨1, 4⟩] := by
  have hreachable : threeColumns.Reachable := ⟨{}, .bytewise, _, rfl, rfl⟩
  have hthird : threeColumns.entries[2]? = some ⟨⟨⟨1, 3⟩,
      [Column.binary [2], Column.float ⟨0x4000000000000000⟩, Column.binary [6]], 2⟩, true⟩ := by cbv
  have hmem := List.mem_of_getElem? hthird
  have halike : threeColumns.alike
      [Column.binary [2], Column.float ⟨0x4000000000000000⟩, Column.binary [6]]
      [Column.binary [2], (Column.float ⟨0⟩).down, Column.binary [6]] = false := by cbv
  obtain ⟨r, t', hset, hr⟩ :=
    recolumns_of_reachable hreachable hmem (show 1 < 3 by decide) (Column.float ⟨0⟩).down
  refine ⟨hreachable, hmem, r, t', hset, hr.hidden, ?_, ?_, ?_⟩
  · have hget := hr.get
    simp only [List.set_cons_succ, List.set_cons_zero, halike] at hget
    exact hget
  · rw [hr.get_other ⟨1, 2⟩ (by decide)]
    cbv
  · rw [hr.others]
    cbv

def zeroRow : Table := (empty {} .bytewise).run [.put ⟨1, 0⟩ [Column.float ⟨0⟩] false]

/-- A zero is not replaced by a negative zero, which is equal to it, and the call succeeds. -/
theorem setColumn_minus_zero :
    zeroRow.Reachable ∧ zeroRow.get ⟨1, 0⟩ = .ok ⟨⟨1, 0⟩, [Column.float ⟨0⟩], false⟩ ∧
      (zeroRow.perform (.setColumn ⟨1, 0⟩ 0 (Column.float ⟨0x8000000000000000⟩))).1 =
        .ok (.recolumned ⟨⟨.modified, none⟩, false⟩) ∧
      (zeroRow.perform (.setColumn ⟨1, 0⟩ 0 (Column.float ⟨0x8000000000000000⟩))).2.get ⟨1, 0⟩ ≠
        .ok ⟨⟨1, 0⟩, [Column.float ⟨0⟩].set 0 (Column.float ⟨0x8000000000000000⟩), false⟩ := by
  have hreachable : zeroRow.Reachable := ⟨{}, .bytewise, _, rfl, rfl⟩
  refine ⟨hreachable, by cbv, by cbv, ?_⟩
  have hkept : (zeroRow.perform (.setColumn ⟨1, 0⟩ 0 (Column.float ⟨0x8000000000000000⟩))).2.get
      ⟨1, 0⟩ = .ok ⟨⟨1, 0⟩, [Column.float ⟨0⟩], false⟩ := by cbv
  rw [hkept]
  decide

end LiveTable.Table
