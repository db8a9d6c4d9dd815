import Mathlib
import LiveTable.Proofs.Linked.Command
import LiveTable.Proofs.Table.Ordered

/-!
# A table is a stable sort

A ledger lists keys and sort keys of the rows in the order in which the rows came to their places;
it knows nothing of trees. A row that is put goes to the end of the ledger, unless it is there
already with an equal sort key. The rows of a table are those of its ledger, sorted by sort key,
and rows with equal sort keys stand in the order of the ledger, so that the linked table they lie in
passes the integrity check (`stablySorted_run`).

The ledger and the table are held together by the arrivals of the rows: the ledger has the rows by
increasing arrival (`Chronicled`).
-/

namespace LiveTable

abbrev Ledger := List (Key × SortKey)

namespace Ledger

def without (l : Ledger) (key : Key) : Ledger := l.filter (·.1 ≠ key)

/-- A row that is put goes to the end, unless it is there already with an equal sort key. -/
def place (compare : SortKey → SortKey → Ordering) (l : Ledger) (key : Key) (columns : SortKey) :
    Ledger :=
  if key = .reserved then l
  else
    match l.find? (·.1 = key) with
    | none => l ++ [(key, columns)]
    | some (_, old) => if compare old columns = .eq then l else l.without key ++ [(key, columns)]

def recolumn (compare : SortKey → SortKey → Ordering) (l : Ledger) (key : Key) (index : Nat)
    (column : Column) : Ledger :=
  match l.find? (·.1 = key) with
  | none => l
  | some (_, old) =>
    if index < old.length then l.place compare key (old.set index column) else l

def step (compare : SortKey → SortKey → Ordering) (l : Ledger) : Command → Ledger
  | .put key columns _ => l.place compare key columns
  | .setColumn key index column => l.recolumn compare key index column
  | .erase key => l.without key
  | .clear => []
  | _ => l

def after (compare : SortKey → SortKey → Ordering) (commands : List Command) : Ledger :=
  commands.foldl (step compare) []

end Ledger

def Row.line (r : Row) : Key × SortKey := (r.key, r.columns)

namespace Table

/-- The ledger has the rows of the table by increasing arrival. -/
def Chronicled (t : Table) (l : Ledger) : Prop :=
  ∃ rows : List Row, rows.Perm (t.entries.map (·.toRow)) ∧
    rows.Pairwise (fun a b => a.arrival < b.arrival) ∧ l = rows.map Row.line

variable {t t' : Table} {l : Ledger} {key : Key} {columns : SortKey} {σ : Schema}

/-! ## What the ledger knows -/

theorem Chronicled.mem_iff (h : t.Chronicled l) {line : Key × SortKey} :
    line ∈ l ↔ ∃ e ∈ t.entries, e.toRow.line = line := by
  obtain ⟨rows, hp, -, rfl⟩ := h
  simp only [List.mem_map, hp.mem_iff]
  constructor
  · rintro ⟨r, ⟨e, he, rfl⟩, hl⟩
    exact ⟨e, he, hl⟩
  · rintro ⟨e, he, hl⟩
    exact ⟨e.toRow, ⟨e, he, rfl⟩, hl⟩

theorem Chronicled.find?_of_not (h : t.Chronicled l) (hk : ¬ HasKey t.entries key) :
    l.find? (·.1 = key) = none := by
  rw [List.find?_eq_none]
  intro line hm
  obtain ⟨e, he, rfl⟩ := h.mem_iff.1 hm
  simp only [decide_eq_true_eq]
  exact fun hek => hk ⟨e, he, hek⟩

theorem Chronicled.find?_of_mem (h : t.Chronicled l) (hd : Distinct t.entries) {e : Entry}
    (he : e ∈ t.entries) : l.find? (·.1 = e.key) = some (e.key, e.columns) := by
  cases hl : l.find? (·.1 = e.key) with
  | none =>
    have hn := List.find?_eq_none.1 hl (e.key, e.columns) (h.mem_iff.2 ⟨e, he, rfl⟩)
    simp at hn
  | some line =>
    obtain ⟨d, hm, rfl⟩ := h.mem_iff.1 (List.mem_of_find?_eq_some hl)
    have hk := List.find?_some hl
    simp only [decide_eq_true_eq] at hk
    rw [hd.eq_of_key hm he hk]
    rfl

/-! ## What becomes of it -/

theorem Chronicled.of_sameRows (h : t.Chronicled l) (hs : SameRows t'.entries t.entries) :
    t'.Chronicled l := by
  obtain ⟨rows, hp, hl⟩ := h
  exact ⟨rows, by rwa [hs], hl⟩

theorem Chronicled.attach (h : t.Chronicled l) (ha : ∀ e ∈ t.entries, e.arrival < t.arrivals)
    (key : Key) (columns : SortKey) (hidden : Bool) :
    (t.attach key columns hidden).2.Chronicled (l ++ [(key, columns)]) := by
  obtain ⟨rows, hp, hs, rfl⟩ := h
  refine ⟨rows ++ [(t.newEntry key columns hidden).toRow], ?_, ?_, by simp [Row.line, newEntry]⟩
  · rw [entries_attach, List.map_append, List.map_cons]
    refine (List.perm_append_singleton ..).trans (.trans ?_ List.perm_middle.symm)
    rw [← List.map_append, t.lower_append_upper columns]
    exact hp.cons _
  · rw [List.pairwise_append]
    refine ⟨hs, List.pairwise_singleton .., fun r hr s hn => ?_⟩
    obtain ⟨e, he, rfl⟩ := List.mem_map.1 (hp.mem_iff.1 hr)
    cases List.mem_singleton.1 hn
    exact ha e he

theorem Chronicled.detach (h : t.Chronicled l) (hd : Distinct t.entries) {f : Focus}
    {xs ys : List Entry} {e : Entry} (hs : f.Splits t.tree xs e ys) :
    (t.detach f).Chronicled (l.without e.key) := by
  obtain ⟨rows, hp, hr, rfl⟩ := h
  refine ⟨rows.filter (·.key ≠ e.key), ?_, hr.filter _, ?_⟩
  · have he := entries_of_splits hs
    have hn := (distinct_middle.1 (he ▸ hd)).1
    have hkeep : (xs ++ ys).filter (·.key ≠ e.key) = xs ++ ys :=
      List.filter_eq_self.2 fun a ha => decide_eq_true fun hk => hn ⟨a, ha, hk⟩
    have hf := hp.filter (·.key ≠ e.key)
    rw [he, List.filter_map] at hf
    rw [entries_detach hs, ← hkeep, List.filter_append]
    rw [List.filter_append] at hf
    refine hf.trans (.of_eq ?_)
    simp [Function.comp_def]
  · rw [Ledger.without, List.filter_map]
    rfl

theorem Chronicled.resort (h : t.Chronicled l) (hs : t.Sound) (ho : t.Ordered σ) {f : Focus}
    {xs ys : List Entry} {e : Entry} (hf : f.Splits t.tree xs e ys) (columns : SortKey)
    (hidden : Bool) :
    (t.resort f e.key columns hidden).Chronicled (l.without e.key ++ [(e.key, columns)]) :=
  (h.detach hs.distinct hf).attach (ho.detach hf).arrived e.key columns hidden

/-! ## Commands and runs -/

/-- In a table in order a row is alike another as soon as it is equal to it one way. -/
theorem Ordered.alike_iff (h : t.Ordered σ) {a b : SortKey} (ha : a.Follows σ) (hb : b.Follows σ) :
    t.alike a b = true ↔ t.compare a b = .eq := by
  rw [alike, h.compare_swap hb ha]
  cases t.compare a b <;> simp

theorem Chronicled.perform_put (h : t.Chronicled l) (hs : t.Sound) (ho : t.Ordered σ)
    (hk : columns.Follows σ) (key : Key) (hidden : Bool) :
    (t.perform (.put key columns hidden)).2.Chronicled (l.place t.compare key columns) := by
  unfold Ledger.place
  rcases t.perform_put key columns hidden with ⟨hr, he⟩ | ⟨hr, hf, he⟩ | ⟨f, hr, hf, ha, he⟩ |
    ⟨f, hr, hf, ha, he⟩
  all_goals rw [he]
  · rw [if_pos hr]
    exact h
  · rw [if_neg hr, h.find?_of_not (hs.focus?_eq_none_iff.1 hf)]
    exact h.attach ho.arrived key columns hidden
  all_goals
    obtain ⟨hsp, rfl⟩ := hs.splits_of_focus? hf
    have hm := mem_of_splits hsp
    have hfind : l.find? (·.1 = f.key) = some (f.key, f.entry.columns) :=
      h.find?_of_mem hs.distinct hm
    have hiff := ho.alike_iff (ho.follows f.entry hm) hk
    rw [if_neg hr, hfind]
    simp only
  · rw [if_pos (hiff.1 ha)]
    exact h
  · rw [if_neg fun hc => by rw [hiff.2 hc] at ha; cases ha]
    exact h.resort hs ho hsp columns hidden

theorem Chronicled.perform_setColumn (h : t.Chronicled l) (hs : t.Sound) (ho : t.Ordered σ)
    {index : Nat} {column : Column} (hc : (column.kind, column.descending) = σ index) (key : Key) :
    (t.perform (.setColumn key index column)).2.Chronicled
      (l.recolumn t.compare key index column) := by
  rw [Table.perform_setColumn]
  unfold Ledger.recolumn
  cases hf : t.focus? key with
  | none =>
    rw [recolumned?_of_none hf, h.find?_of_not (hs.focus?_eq_none_iff.1 hf)]
    exact h
  | some f =>
    obtain ⟨hsp, rfl⟩ := hs.splits_of_focus? hf
    have hm := mem_of_splits hsp
    rw [recolumned?_of_some hf,
      show l.find? (·.1 = f.key) = some (f.key, f.entry.columns) from h.find?_of_mem hs.distinct hm]
    by_cases hi : index < f.entry.columns.length
    · rw [if_pos hi]
      simp only [if_pos hi]
      exact h.perform_put hs ho (Schema.follows_set (ho.follows f.entry hm) hc) f.key f.entry.hidden
    · rw [if_neg hi]
      simp only [if_neg hi]
      exact h

theorem Chronicled.without_of_not (h : t.Chronicled l) (hk : ¬ HasKey t.entries key) :
    l.without key = l := by
  apply List.filter_eq_self.2
  intro line hm
  obtain ⟨e, he, rfl⟩ := h.mem_iff.1 hm
  exact decide_eq_true fun hek => hk ⟨e, he, hek⟩

theorem Chronicled.perform (h : t.Chronicled l) (hs : t.Sound) (ho : t.Ordered σ) {c : Command}
    (hc : c.Follows σ) : (t.perform c).2.Chronicled (l.step t.compare c) := by
  cases c using Command.edits_cases with
  | same c he =>
    have hl : l.step t.compare c = l := by
      cases c with
      | put | erase | setColumn | clear | collapse | expand => cases he
      | _ => rfl
    rw [hl]
    exact h.of_sameRows ((t.perform_same he).entries ▸ .refl _)
  | put key columns hidden => exact h.perform_put hs ho hc key hidden
  | setColumn key index column => exact h.perform_setColumn hs ho hc key
  | erase key =>
    show Chronicled _ (l.without key)
    rcases t.perform_erase key with ⟨hf, he⟩ | ⟨f, hf, he⟩
    all_goals rw [he]
    · rw [h.without_of_not (hs.focus?_eq_none_iff.1 hf)]
      exact h
    · obtain ⟨hsp, rfl⟩ := hs.splits_of_focus? hf
      exact h.detach hs.distinct hsp
  | clear => exact ⟨[], .nil, .nil, rfl⟩
  | collapse key =>
    rcases t.perform_collapse key with ⟨-, he⟩ | ⟨f, hf, he⟩
    all_goals rw [he]
    · exact h
    · exact h.of_sameRows (sameRows_collapsed (hs.splits_of_focus? hf).1)
  | expand key =>
    rcases t.perform_expand key with he | ⟨f, n, hf, he⟩
    all_goals rw [he]
    · exact h
    · exact h.of_sameRows (sameRows_expanded (hs.splits_of_focus? hf).1)

theorem sublist_of_arrival {rows : List Row} (h : rows.Pairwise fun a b => a.arrival < b.arrival)
    {a b : Row} (ha : a ∈ rows) (hb : b ∈ rows) (hab : a.arrival < b.arrival) :
    [a, b].Sublist rows := by
  obtain ⟨xs, ys, rfl⟩ := List.append_of_mem ha
  rw [List.pairwise_append] at h
  have hy : b ∈ ys := by
    rcases List.mem_append.1 hb with hx | hb
    · have hba := h.2.2 b hx a List.mem_cons_self
      omega
    · rcases List.mem_cons.1 hb with rfl | hb
      · omega
      · exact hb
  exact ((List.singleton_sublist.2 hy).cons_cons a).trans (List.sublist_append_right xs (a :: ys))

/-- The rows of the table are those of the ledger, sorted by sort key; rows with equal sort keys
stand in the order of the ledger. -/
structure StablySorted (t : Table) (l : Ledger) : Prop where
  perm : (t.entries.map fun e => (e.key, e.columns)).Perm l
  keys : (l.map (·.1)).Nodup
  sorted : (t.entries.map fun e => (e.key, e.columns)).Pairwise fun a b =>
    t.compare a.2 b.2 = .lt ∨ t.compare a.2 b.2 = .eq ∧ [a, b].Sublist l

theorem Chronicled.stablySorted (h : t.Chronicled l) (hs : t.Sound) (ho : t.Ordered σ) :
    t.StablySorted l := by
  obtain ⟨rows, hp, hr, rfl⟩ := h
  have hlines : t.entries.map (fun e => (e.key, e.columns)) =
      (t.entries.map (·.toRow)).map Row.line := by
    rw [List.map_map]
    rfl
  refine ⟨?_, ?_, ?_⟩
  · rw [hlines]
    exact (hp.map Row.line).symm
  · have hk := hp.map (·.key)
    rw [List.map_map] at hk ⊢
    exact hk.nodup_iff.2 hs.distinct
  · rw [hlines, List.pairwise_map, List.pairwise_map]
    refine ho.sorted.imp_of_mem fun {a b} ha hb hab => hab.imp_right ?_
    rintro ⟨heq, hlt⟩
    exact ⟨heq, (sublist_of_arrival hr (hp.mem_iff.2 (List.mem_map_of_mem ha))
      (hp.mem_iff.2 (List.mem_map_of_mem hb)) hlt).map Row.line⟩

theorem Chronicled.run (h : t.Chronicled l) (hs : t.Sound) (ho : t.Ordered σ)
    {commands : List Command} (hc : ∀ c ∈ commands, c.Follows σ) :
    (t.run commands).StablySorted (commands.foldl (Ledger.step t.compare) l) := by
  induction commands generalizing t l with
  | nil => exact h.stablySorted hs ho
  | cons c rest ih =>
    have hf := hc c List.mem_cons_self
    have hr := ih (h.perform hs ho hf) (hs.perform c) (ho.perform hs hf)
      fun d hd => hc d (List.mem_cons_of_mem c hd)
    rwa [show (t.perform c).2.compare = t.compare from
      congrArg SortKey.compare (t.collation_perform c)] at hr

/-- Whatever commands there were, as long as all sort keys followed one schema, the table is the
stable sort of its ledger, and the linked table passes the integrity check. -/
theorem stablySorted_run {collation : Collation} (h : IsPreorder collation)
    {commands : List Command} (hc : ∀ c ∈ commands, c.Follows σ) (settings : Settings) :
    ((empty settings collation).run commands).StablySorted
      (Ledger.after (SortKey.compare collation) commands) ∧
    ∃ w, (LinkedTable.empty settings collation).run commands = some w ∧
      w.StandsFor ((empty settings collation).run commands) ∧ w.verify.run = some (.ok ()) := by
  have hs := sound_empty settings collation
  have ho := ordered_empty settings h σ
  obtain ⟨w, hw, all, hr⟩ := LinkedTable.exists_run settings collation commands
  have hv := (ho.run hs hc).verify_eq
  exact ⟨Chronicled.run ⟨[], .nil, .nil, rfl⟩ hs ho hc, w, hw, ⟨all, hr⟩,
    hr.verify.trans (congrArg some hv)⟩

/-- Rows with two sort keys. One of the first three goes, the first one is brought to another place
and back, and another one is put again as it is. -/
def tied : List Command :=
  [.put ⟨1, 1⟩ [Column.binary [1]] false, .put ⟨1, 2⟩ [Column.binary [2]] false,
    .put ⟨1, 3⟩ [Column.binary [1]] true, .put ⟨1, 4⟩ [Column.binary [1]] false, .erase ⟨1, 3⟩,
    .setColumn ⟨1, 1⟩ 0 (Column.binary [2]), .put ⟨1, 5⟩ [Column.binary [1]] false,
    .put ⟨1, 1⟩ [Column.binary [1]] true, .put ⟨1, 4⟩ [Column.binary [1]] true]

theorem stablySorted_tied :
    IsPreorder Collation.bytewise ∧ (∀ c ∈ tied, c.Follows fun _ => (.binary, false)) ∧
      ((empty {} .bytewise).run tied).StablySorted [(⟨1, 2⟩, [Column.binary [2]]),
        (⟨1, 4⟩, [Column.binary [1]]), (⟨1, 5⟩, [Column.binary [1]]),
        (⟨1, 1⟩, [Column.binary [1]])] ∧
      ∃ w, (LinkedTable.empty {} .bytewise).run tied = some w ∧
        w.StandsFor ((empty {} .bytewise).run tied) ∧ w.verify.run = some (.ok ()) := by
  have hk (b : Bytes) : SortKey.Follows [Column.binary b] fun _ => (.binary, false) :=
    Schema.follows_cons.2 ⟨rfl, Schema.follows_nil _⟩
  have hf : ∀ c ∈ tied, c.Follows fun _ => (.binary, false) := by
    simp only [tied, List.forall_mem_cons]
    exact ⟨hk _, hk _, hk _, hk _, trivial, rfl, hk _, hk _, hk _, by simp⟩
  have hledger : Ledger.after (SortKey.compare .bytewise) tied = [(⟨1, 2⟩, [Column.binary [2]]),
      (⟨1, 4⟩, [Column.binary [1]]), (⟨1, 5⟩, [Column.binary [1]]),
      (⟨1, 1⟩, [Column.binary [1]])] := by cbv
  have h := stablySorted_run Collation.isPreorder_bytewise hf {}
  rw [hledger] at h
  exact ⟨Collation.isPreorder_bytewise, hf, h⟩

end Table

end LiveTable
