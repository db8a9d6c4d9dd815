import LiveTable.Proofs.Entries
import LiveTable.Proofs.Store
import LiveTable.Proofs.Tree.Sound
import LiveTable.Table.Command

/-!
# Sound tables

A table is sound if its tree and its store are, if they hold the same rows, each under a key of
its own, and if the cursor and the bookmarks are on rows that are there. Nothing is said about the
order of the rows. In a sound table every row is found in its place (`Sound.focus?`), so that the
calls may be read as changes of the list of rows.
-/

namespace LiveTable

/-- The position is on one of the rows, or on none. -/
def Position.Within (rows : List Entry) : Position → Prop
  | .row key => HasKey rows key
  | _ => True

def Position.ahead (rows : List Entry) : Position → List Entry
  | .beforeFirst => rows
  | .row key => rows.dropWhile (·.key ≠ key)
  | .pastEnd => []

def Position.first (rows : List Entry) (none : Position) : Position :=
  match rows with
  | [] => none
  | e :: _ => .row e.key

namespace Table

/-- Tree, store, cursor and bookmarks agree with each other. -/
structure Sound (t : Table) : Prop where
  tree : t.tree.Sound
  store : t.store.Sound
  distinct : Distinct t.entries
  find?_iff (key : Key) (row : Row) :
    t.store.find? key = some row ↔ ∃ e ∈ t.entries, e.key = key ∧ e.toRow = row
  size_eq : t.size = t.entries.length
  cursor : t.cursor.Within t.entries
  bookmarks : ∀ b ∈ t.bookmarks, b.position.Within t.entries

end Table

/-! ## Positions -/

namespace Position

theorem Within.mono {rows all : List Entry} {p : Position} (h : p.Within rows) (hs : rows ⊆ all) :
    p.Within all := by
  cases p with
  | row key =>
    obtain ⟨e, he, hk⟩ := h
    exact ⟨e, hs he, hk⟩
  | beforeFirst => trivial
  | pastEnd => trivial

theorem Within.sameRows {rows all : List Entry} {p : Position} (h : p.Within all)
    (hr : SameRows rows all) : p.Within rows := by
  cases p with
  | row key => exact hr.hasKey.2 h
  | beforeFirst => trivial
  | pastEnd => trivial

theorem within_of_ne {xs ys : List Entry} {e : Entry} {p : Position}
    (h : p.Within (xs ++ e :: ys)) (hp : p ≠ .row e.key) : p.Within (xs ++ ys) := by
  cases p with
  | beforeFirst => trivial
  | pastEnd => trivial
  | row key =>
    obtain ⟨a, ha, rfl⟩ := h
    rcases mem_middle.1 ha with rfl | ha
    · exact absurd rfl hp
    · exact ⟨a, ha, rfl⟩

theorem within_first {rows all : List Entry} {p : Position} (hs : rows ⊆ all) (hp : p.Within all) :
    (first rows p).Within all := by
  cases rows with
  | nil => exact hp
  | cons e rest => exact ⟨e, hs List.mem_cons_self, rfl⟩

theorem ahead_suffix (rows : List Entry) (p : Position) : ∃ xs, rows = xs ++ p.ahead rows := by
  cases p with
  | beforeFirst => exact ⟨[], rfl⟩
  | row key => exact ⟨_, List.takeWhile_append_dropWhile.symm⟩
  | pastEnd => exact ⟨rows, (List.append_nil _).symm⟩

theorem ahead_row {xs ys : List Entry} {e : Entry} (hd : Distinct (xs ++ e :: ys)) :
    (row e.key).ahead (xs ++ e :: ys) = e :: ys := hd.span_ne.2

theorem ahead_first {xs ys : List Entry} (hd : Distinct (xs ++ ys)) :
    (first ys pastEnd).ahead (xs ++ ys) = ys := by
  cases ys with
  | nil => rfl
  | cons e rest => exact ahead_row hd

theorem orEnd_eq (side : Side) (stop : Option Focus) :
    orEnd stop = first (reach side stop) pastEnd := by
  cases stop <;> rfl

theorem orStart_eq (side : Side) (stop : Option Focus) :
    orStart stop = first (reach side stop) beforeFirst := by
  cases stop <;> rfl

end Position

/-! ## Rows in their places -/

/-- The focus is on the row `e` of the tree, with `xs` before it and `ys` after it. -/
structure Focus.Splits (f : Focus) (t : Tree) (xs : List Entry) (e : Entry) (ys : List Entry) :
    Prop where
  plug : f.plug = t
  before : f.before = xs
  entry : f.entry = e
  after : f.after = ys

namespace Focus

variable {f : Focus} {t : Tree} {xs ys : List Entry} {e : Entry}

theorem splits_self (h : f.plug = t) : f.Splits t f.before f.entry f.after := ⟨h, rfl, rfl, rfl⟩

theorem Splits.toList_eq (h : f.Splits t xs e ys) : t.toList = xs ++ e :: ys := by
  rw [← h.plug, f.toList_plug, h.before, h.entry, h.after]

theorem Splits.key_eq (h : f.Splits t xs e ys) : f.key = e.key := by rw [← h.entry]; rfl

theorem Splits.reach_right (h : f.Splits t xs e ys) : reach .right (some f) = e :: ys := by
  rw [reach, h.entry, ← h.after, Focus.after]

end Focus

namespace Table

variable {t : Table}

section

variable {f : Focus} {xs ys : List Entry} {e : Entry}

theorem entries_of_splits (h : f.Splits t.tree xs e ys) : t.entries = xs ++ e :: ys := h.toList_eq

theorem mem_of_splits (h : f.Splits t.tree xs e ys) : e ∈ t.entries :=
  entries_of_splits h ▸ mem_middle.2 (.inl rfl)

end

theorem Sound.mem_keys_iff (h : t.Sound) {key : Key} :
    HasKey t.entries key ↔ t.store.find? key ≠ none := by
  rw [Option.ne_none_iff_exists']
  constructor
  · rintro ⟨e, he, hk⟩
    exact ⟨e.toRow, (h.find?_iff key e.toRow).2 ⟨e, he, hk, rfl⟩⟩
  · rintro ⟨row, hr⟩
    obtain ⟨e, he, hk, -⟩ := (h.find?_iff key row).1 hr
    exact ⟨e, he, hk⟩

theorem Sound.contains_iff (h : t.Sound) (key : Key) :
    t.contains key = true ↔ HasKey t.entries key := by
  rw [contains, h.store.contains_eq, h.mem_keys_iff, Option.isSome_iff_ne_none]

theorem Sound.focus? (h : t.Sound) {xs ys : List Entry} {e : Entry}
    (he : t.entries = xs ++ e :: ys) : ∃ f, t.focus? e.key = some f ∧ f.Splits t.tree xs e ys := by
  have hm : e ∈ t.tree.toList := by rw [show t.tree.toList = xs ++ e :: ys from he]; simp
  have hr : t.store.find? e.key = some e.toRow := (h.find?_iff e.key e.toRow).2 ⟨e, hm, rfl, rfl⟩
  cases hl : t.tree.locate t.collation e.toRow with
  | none => exact absurd rfl (Tree.locate_eq_none_iff.1 hl e hm)
  | some f =>
    obtain ⟨hk, hp⟩ := Tree.locate_some hl
    have hs : xs ++ e :: ys = f.before ++ f.entry :: f.after := by
      rw [← f.toList_plug, hp]
      exact he.symm
    obtain ⟨h1, h2, h3⟩ := (he ▸ h.distinct).split hs hk.symm
    exact ⟨f, by rw [Table.focus?, hr]; exact hl, hp, h1.symm, h2.symm, h3.symm⟩

theorem Sound.focus?_of_hasKey (h : t.Sound) {key : Key} (hk : HasKey t.entries key) :
    ∃ f xs e ys, t.focus? key = some f ∧ f.Splits t.tree xs e ys ∧ e.key = key := by
  obtain ⟨xs, e, ys, he, rfl⟩ := hk.split
  obtain ⟨f, hf, hs⟩ := h.focus? he
  exact ⟨f, xs, e, ys, hf, hs, rfl⟩

/-- Where a key leads to a row, that row has the key and is a row of the table. -/
theorem Sound.splits_of_focus? (h : t.Sound) {key : Key} {f : Focus} (hf : t.focus? key = some f) :
    f.Splits t.tree f.before f.entry f.after ∧ f.key = key := by
  obtain ⟨row, hr, hl⟩ := Option.bind_eq_some_iff.1 hf
  obtain ⟨hk, hp⟩ := Tree.locate_some hl
  exact ⟨Focus.splits_self hp, hk.trans (h.store.key_of_find? hr)⟩

theorem Sound.focus?_eq_none_iff (h : t.Sound) {key : Key} :
    t.focus? key = none ↔ ¬ HasKey t.entries key := by
  constructor
  · rintro hf hk
    obtain ⟨f, xs, e, ys, hf', -⟩ := h.focus?_of_hasKey hk
    rw [hf] at hf'
    cases hf'
  · intro hk
    cases hf : t.focus? key with
    | none => rfl
    | some f =>
      obtain ⟨hs, hk'⟩ := h.splits_of_focus? hf
      exact absurd ⟨f.entry, mem_of_splits hs, hk'⟩ hk

theorem lookup_of_some {key : Key} {f : Focus} (hf : t.focus? key = some f) :
    t.lookup key = .ok f := by
  rw [lookup, hf]

theorem lookup_of_none {key : Key} (hf : t.focus? key = none) :
    t.lookup key = .error (.notFound key) := by
  rw [lookup, hf]

theorem at?_eq_some_iff {p : Position} {f : Focus} :
    t.at? p = some f ↔ ∃ key, p = .row key ∧ t.focus? key = some f := by
  cases p <;> simp [at?]

/-! ## New tables -/

theorem sound_empty (settings : Settings) (collation : Collation) :
    (empty settings collation).Sound where
  tree := Tree.sound_nil
  store := Store.sound_empty
  distinct := List.nodup_nil
  find?_iff key row := by simp [empty, entries, Store.find?, Store.empty]
  size_eq := rfl
  cursor := trivial
  bookmarks := by simp [empty]

theorem Sound.note (h : t.Sound) (e : Tally.Event) : (t.note e).Sound :=
  ⟨h.tree, h.store, h.distinct, h.find?_iff, h.size_eq, h.cursor, h.bookmarks⟩

theorem Sound.moveTo (h : t.Sound) {p : Position} (hp : p.Within t.entries) :
    ({ t with cursor := p } : Table).Sound :=
  ⟨h.tree, h.store, h.distinct, h.find?_iff, h.size_eq, hp, h.bookmarks⟩

end Table

end LiveTable
