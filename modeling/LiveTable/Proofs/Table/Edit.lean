import LiveTable.Proofs.Table.Sound
import LiveTable.Proofs.Tree.Walk

/-!
# What the editing calls do to the rows

A new row is put between `lower` and `upper`, the rows that are passed on its right and on its
left on the way down; together they are all rows, whatever the order (`lower_append_upper`), and
where the sort keys are ordered they are the rows that the new row does not come before and those
that it comes before (`lower_eq_filter`). Taking a row out leaves all others where they are.
`put_cases` says which of these changes a `put` makes.
-/

namespace LiveTable

namespace Table

section

variable (t : Table) (columns : SortKey)

/-- Whether a row with the sort key goes to the left of a row. -/
def comesBefore (e : Entry) : Bool := (t.compare columns e.columns).isLT

/-- The rows that a new row is put behind. -/
def lower : List Entry := (rowsAbove .left (t.tree.gap (t.comesBefore columns) [])).reverse

/-- The rows that a new row is put before. -/
def upper : List Entry := rowsAbove .right (t.tree.gap (t.comesBefore columns) [])

theorem lower_append_upper : t.lower columns ++ t.upper columns = t.entries :=
  Tree.toList_gap _ _

/-- Where the rows that come after the new one stand together at the end, it is put right before
them. -/
theorem lower_eq_filter
    (h : t.entries.Pairwise fun a b =>
      t.comesBefore columns a = true → t.comesBefore columns b = true) :
    t.lower columns = t.entries.filter (!t.comesBefore columns ·) ∧
      t.upper columns = t.entries.filter (t.comesBefore columns) := by
  obtain ⟨h1, h2⟩ := Tree.rowsAbove_gap h []
  constructor
  · rw [lower, h1]
    simp [rowsAbove, entries]
  · rw [upper, h2]
    simp [rowsAbove, entries]

end

/-! ## A new row -/

section

variable {t : Table} (key : Key) (columns : SortKey) (hidden : Bool)

def newEntry (t : Table) : Entry := ⟨⟨key, columns, t.arrivals⟩, hidden⟩

theorem entries_attach :
    (t.attach key columns hidden).2.entries =
      t.lower columns ++ t.newEntry key columns hidden :: t.upper columns :=
  Tree.toList_plant _ _

theorem mem_attach {e : Entry} :
    e ∈ (t.attach key columns hidden).2.entries ↔
      e = t.newEntry key columns hidden ∨ e ∈ t.entries := by
  rw [entries_attach, ← t.lower_append_upper columns, List.mem_append, List.mem_append,
    List.mem_cons, or_left_comm]

theorem subset_entries_attach : t.entries ⊆ (t.attach key columns hidden).2.entries :=
  fun _ he => (mem_attach ..).2 (.inr he)

theorem hasKey_attach {other : Key} :
    HasKey (t.attach key columns hidden).2.entries other ↔
      other = key ∨ HasKey t.entries other := by
  simp only [HasKey, mem_attach, or_and_right, exists_or, exists_eq_left]
  exact or_congr_left eq_comm

theorem Sound.size_attach (h : t.Sound) :
    (t.attach key columns hidden).2.size = t.size + 1 := h.store.size_insert _

theorem Sound.attach (h : t.Sound) (hk : ¬ HasKey t.entries key) :
    (t.attach key columns hidden).2.Sound where
  tree := h.tree.plant _ _
  store := h.store.insert (by simpa [h.mem_keys_iff] using hk)
  distinct := by
    rw [entries_attach, distinct_middle, t.lower_append_upper columns]
    exact ⟨hk, h.distinct⟩
  find?_iff other row := by
    show (t.store.insert _).find? other = some row ↔ _
    rw [h.store.find?_insert]
    by_cases ho : other = key
    · rw [if_pos ho]
      constructor
      · rintro ⟨⟩
        exact ⟨_, (mem_attach ..).2 (.inl rfl), ho.symm, rfl⟩
      · rintro ⟨e, he, hek, rfl⟩
        rcases (mem_attach ..).1 he with rfl | he
        · rfl
        · exact absurd ⟨e, he, hek.trans ho⟩ hk
    · rw [if_neg ho, h.find?_iff]
      constructor
      · rintro ⟨e, he, hek, hr⟩
        exact ⟨e, (mem_attach ..).2 (.inr he), hek, hr⟩
      · rintro ⟨e, he, hek, hr⟩
        rcases (mem_attach ..).1 he with rfl | he
        · exact absurd hek.symm ho
        · exact ⟨e, he, hek, hr⟩
  size_eq := by
    rw [h.size_attach, entries_attach, List.length_append, List.length_cons, ← Nat.add_assoc,
      ← List.length_append, t.lower_append_upper columns]
    exact congrArg (· + 1) h.size_eq
  cursor := h.cursor.mono (subset_entries_attach ..)
  bookmarks b hb := (h.bookmarks b hb).mono (subset_entries_attach ..)

/-- The row before the new one is the last of those that it was put behind. -/
theorem Sound.attach_fst (h : t.Sound) (hk : ¬ HasKey t.entries key) :
    (t.attach key columns hidden).1 = (t.lower columns).getLast?.map (·.key) := by
  obtain ⟨f, hf, hs⟩ := (h.attach key columns hidden hk).focus? (entries_attach key columns hidden)
  show (t.attach key columns hidden).2.predecessor key = _
  rw [predecessor, show (t.attach key columns hidden).2.focus? key = some f from hf,
    Option.bind_some, f.step_left_key, hs.before]

end

/-! ## A row less -/

section

variable {t : Table} {f : Focus} {xs ys : List Entry} {e : Entry}

theorem entries_detach (hs : f.Splits t.tree xs e ys) : (t.detach f).entries = xs ++ ys := by
  rw [← hs.before, ← hs.after]
  exact f.toList_remove

/-- The cursor goes to the row after the one that is taken out. -/
theorem cursor_detach (hs : f.Splits t.tree xs e ys) :
    (t.detach f).cursor = if t.cursor = .row e.key then .first ys .pastEnd else t.cursor := by
  show (if t.cursor = .row f.key then Position.orEnd (f.step .right) else t.cursor) = _
  rw [hs.key_eq, Position.orEnd_eq .right, reach_step]
  split
  · rw [← hs.after]
    rfl
  · rfl

theorem bookmarks_detach (hs : f.Splits t.tree xs e ys) :
    (t.detach f).bookmarks = t.bookmarks.filter (·.position ≠ .row e.key) := by
  rw [← hs.key_eq]
  rfl

theorem Sound.detach (h : t.Sound) (hs : f.Splits t.tree xs e ys) : (t.detach f).Sound := by
  have he := entries_of_splits hs
  have hd := distinct_middle.1 (he ▸ h.distinct)
  have hr : t.store.find? e.key = some e.toRow :=
    (h.find?_iff ..).2 ⟨e, by simp [he], rfl, rfl⟩
  refine ⟨?_, h.store.erase _, entries_detach hs ▸ hd.2, fun key row => ?_, ?_, ?_, fun b hb => ?_⟩
  · exact Focus.sound_remove (hs.plug ▸ h.tree)
  · show (t.store.erase f.key).find? key = some row ↔ _
    rw [h.store.find?_erase, entries_detach hs, hs.key_eq]
    by_cases hk : key = e.key
    · rw [if_pos hk]
      constructor
      · rintro ⟨⟩
      · rintro ⟨a, ha, hak, -⟩
        exact absurd ⟨a, ha, hak.trans hk⟩ hd.1
    · rw [if_neg hk, h.find?_iff, he]
      constructor
      · rintro ⟨a, ha, hak, har⟩
        rcases mem_middle.1 ha with rfl | ha
        · exact absurd hak.symm hk
        · exact ⟨a, ha, hak, har⟩
      · rintro ⟨a, ha, hak, har⟩
        exact ⟨a, mem_middle.2 (.inr ha), hak, har⟩
  · have hz := h.store.size_erase hr
    have hl := h.size_eq
    rw [he, List.length_append, List.length_cons] at hl
    rw [entries_detach hs, List.length_append]
    show (t.store.erase f.key).size = _
    rw [hs.key_eq]
    simp only [Table.size] at hl
    omega
  · rw [cursor_detach hs, entries_detach hs]
    split
    · exact Position.within_first (List.subset_append_right _ _) trivial
    · rename_i hc
      exact Position.within_of_ne (he ▸ h.cursor) hc
  · rw [bookmarks_detach hs, List.mem_filter] at hb
    rw [entries_detach hs]
    exact Position.within_of_ne (he ▸ h.bookmarks b hb.1) (of_decide_eq_true hb.2)

theorem Sound.not_hasKey_detach (h : t.Sound) (hs : f.Splits t.tree xs e ys) :
    ¬ HasKey (t.detach f).entries e.key := by
  rw [entries_detach hs]
  exact (distinct_middle.1 (entries_of_splits hs ▸ h.distinct)).1

theorem Sound.size_detach (h : t.Sound) (hs : f.Splits t.tree xs e ys) :
    (t.detach f).size + 1 = t.size := by
  rw [(h.detach hs).size_eq, h.size_eq, entries_detach hs, entries_of_splits hs,
    List.length_append, List.length_append, List.length_cons, Nat.add_assoc]

/-- A row that is brought to a new place takes the cursor along. -/
def resort (t : Table) (f : Focus) (key : Key) (columns : SortKey) (hidden : Bool) : Table :=
  { ((t.detach f).attach key columns hidden).2 with cursor := t.cursor }

theorem entries_resort (key : Key) (columns : SortKey) (hidden : Bool) :
    (t.resort f key columns hidden).entries =
      (t.detach f).lower columns ++ t.newEntry key columns hidden :: (t.detach f).upper columns :=
  entries_attach ..

theorem Sound.resort (h : t.Sound) (hs : f.Splits t.tree xs e ys) (columns : SortKey)
    (hidden : Bool) : (t.resort f e.key columns hidden).Sound := by
  have he := entries_of_splits hs
  refine ((h.detach hs).attach e.key columns hidden (h.not_hasKey_detach hs)).moveTo ?_
  have hc := h.cursor
  rw [he] at hc
  cases hp : t.cursor with
  | beforeFirst => trivial
  | pastEnd => trivial
  | row key =>
    rw [hp] at hc
    obtain ⟨a, ha, rfl⟩ := hc
    refine (hasKey_attach ..).2 ?_
    rcases mem_middle.1 ha with rfl | ha
    · exact .inl rfl
    · exact .inr ⟨a, by rwa [entries_detach hs], rfl⟩

end

/-! ## The calls -/

section

variable {t : Table}

/-- A `put` is refused, adds a row, finds nothing to change or brings a row to a new place. -/
theorem put_cases (t : Table) (key : Key) (columns : SortKey) (hidden : Bool) :
    (key = .reserved ∧ t.put key columns hidden = .error (.reservedKey key)) ∨
    (key ≠ .reserved ∧ t.focus? key = none ∧
      t.put key columns hidden = .ok (⟨.added, (t.attach key columns hidden).1⟩,
        (t.attach key columns hidden).2.note .added)) ∨
    (∃ f, key ≠ .reserved ∧ t.focus? key = some f ∧ t.alike f.entry.columns columns = true ∧
      t.put key columns hidden = .ok (⟨.modified, (f.step .left).map (·.key)⟩, t.note .unchanged)) ∨
    (∃ f, key ≠ .reserved ∧ t.focus? key = some f ∧ t.alike f.entry.columns columns = false ∧
      t.put key columns hidden = .ok (⟨.modified, ((t.detach f).attach key columns hidden).1⟩,
        (t.resort f key columns hidden).note .modified)) := by
  unfold put
  by_cases hk : key = .reserved
  · exact .inl ⟨hk, if_pos hk⟩
  · rw [if_neg hk]
    cases hf : t.focus? key with
    | none => exact .inr (.inl ⟨hk, rfl, rfl⟩)
    | some f =>
      cases ha : t.alike f.entry.columns columns with
      | true => exact .inr (.inr (.inl ⟨f, hk, rfl, ha, by simp only [ha, if_true]⟩))
      | false =>
        exact .inr (.inr (.inr ⟨f, hk, rfl, ha, by simp only [ha]; rfl⟩))

theorem put_total (t : Table) {key : Key} (hk : key ≠ .reserved) (columns : SortKey)
    (hidden : Bool) : ∃ p t', t.put key columns hidden = .ok (p, t') := by
  rcases t.put_cases key columns hidden with ⟨hr, -⟩ | ⟨-, -, he⟩ | ⟨f, -, -, -, he⟩ |
    ⟨f, -, -, -, he⟩
  · exact absurd hr hk
  all_goals exact ⟨_, _, he⟩

/-- The row that is put stands directly after its predecessor, among the other rows as they were. -/
theorem Sound.put_predecessor (h : t.Sound) {key : Key} {columns : SortKey} {hidden : Bool}
    {p : Placement} {t' : Table} (hp : t.put key columns hidden = .ok (p, t')) :
    ∃ xs e ys, t'.entries = xs ++ e :: ys ∧ e.key = key ∧
      p.predecessor = xs.getLast?.map (·.key) ∧ xs ++ ys = t.entries.filter (·.key ≠ key) := by
  -- the rows around one that is there already are those that do not have its key
  have haround {f : Focus} (hf : t.focus? key = some f) :
      f.before ++ f.after = t.entries.filter (·.key ≠ key) := by
    obtain ⟨hs, rfl⟩ := h.splits_of_focus? hf
    rw [entries_of_splits hs]
    exact (entries_of_splits hs ▸ h.distinct).filter_ne.symm
  rcases t.put_cases key columns hidden with ⟨-, he⟩ | ⟨-, hf, he⟩ | ⟨f, -, hf, -, he⟩ |
    ⟨f, -, hf, -, he⟩
  all_goals
    rw [he] at hp
    cases hp
  · refine ⟨t.lower columns, t.newEntry key columns hidden, t.upper columns,
      entries_attach key columns hidden, rfl, ?_, ?_⟩
    · exact h.attach_fst key columns hidden (h.focus?_eq_none_iff.1 hf)
    · rw [lower_append_upper, filter_ne_of_not_hasKey (h.focus?_eq_none_iff.1 hf)]
  · obtain ⟨hs, hk⟩ := h.splits_of_focus? hf
    exact ⟨f.before, f.entry, f.after, hs.toList_eq, hk, f.step_left_key, haround hf⟩
  · obtain ⟨hs, hk⟩ := h.splits_of_focus? hf
    refine ⟨(t.detach f).lower columns, t.newEntry key columns hidden, (t.detach f).upper columns,
      entries_resort (t := t) (f := f) key columns hidden, rfl, ?_, ?_⟩
    · refine (h.detach hs).attach_fst key columns hidden ?_
      exact hk ▸ h.not_hasKey_detach hs
    · rw [lower_append_upper, entries_detach hs, haround hf]

theorem erase_of_none {key : Key} (hf : t.focus? key = none) :
    t.erase key = .error (.notFound key) := by
  simp only [erase, lookup_of_none hf]
  rfl

theorem erase_of_some {key : Key} {f : Focus} (hf : t.focus? key = some f) :
    t.erase key = .ok ((t.detach f).note .deleted) := by
  simp only [erase, lookup_of_some hf]
  rfl

theorem setColumn_of_none {key : Key} (hf : t.focus? key = none) (index : Nat) (column : Column) :
    t.setColumn key index column = .error (.notFound key) := by
  simp only [setColumn, lookup_of_none hf]
  rfl

theorem setColumn_of_le {key : Key} {f : Focus} (hf : t.focus? key = some f) {index : Nat}
    (hi : f.entry.columns.length ≤ index) (column : Column) :
    t.setColumn key index column =
      .error (.columnOutOfRange index key f.entry.columns.length) := by
  rw [setColumn, lookup_of_some hf]
  exact if_pos hi

theorem setColumn_of_lt {key : Key} {f : Focus} (hf : t.focus? key = some f) {index : Nat}
    (hi : index < f.entry.columns.length) (column : Column) :
    t.setColumn key index column =
      (t.put key (f.entry.columns.set index column) f.entry.hidden).map
        fun (p, t) => (⟨p, f.entry.hidden⟩, t) := by
  rw [setColumn, lookup_of_some hf]
  refine (if_neg (Nat.not_le.2 hi)).trans ?_
  cases t.put key (f.entry.columns.set index column) f.entry.hidden <;> rfl

/-- A column is replaced by a `put`, which gives the answer. -/
theorem put_of_setColumn {key : Key} {index : Nat} {column : Column} {r : Recolumned} {t' : Table}
    (hr : t.setColumn key index column = .ok (r, t')) :
    ∃ columns hidden, t.put key columns hidden = .ok (r.toPlacement, t') := by
  cases hf : t.focus? key with
  | none =>
    rw [setColumn_of_none hf] at hr
    cases hr
  | some f =>
    rcases Nat.lt_or_ge index f.entry.columns.length with hi | hi
    · rw [setColumn_of_lt hf hi] at hr
      refine ⟨f.entry.columns.set index column, f.entry.hidden, ?_⟩
      cases hp : t.put key (f.entry.columns.set index column) f.entry.hidden with
      | error fault =>
        rw [hp] at hr
        cases hr
      | ok placed =>
        rw [hp] at hr
        cases hr
        rfl
    · rw [setColumn_of_le hf hi] at hr
      cases hr

theorem Sound.clear (h : t.Sound) : t.clear.Sound where
  tree := Tree.sound_nil
  store := h.store.clear
  distinct := List.nodup_nil
  find?_iff key row := by simp [Table.clear, entries]
  size_eq := Store.size_clear _
  cursor := trivial
  bookmarks b hb := by simp [Table.clear] at hb

end

end Table

end LiveTable
