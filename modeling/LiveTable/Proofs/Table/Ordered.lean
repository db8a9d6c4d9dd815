import LiveTable.Proofs.Column.Order
import LiveTable.Proofs.Table.Integrity
import LiveTable.Proofs.Table.Reachable

/-!
# Tables in order

Where the collation is an order and all sort keys follow one schema, the rows stand in order: by
sort key, and by arrival where the sort keys are equal. The rows that a new row comes before are
then the last ones, so that the descent from the root finds its place behind all rows that are
equal to it (`Ordered.comesBefore_mono`), and it arrives after all of them. Whatever is taken out or
hidden, the others stay in order.
-/

namespace LiveTable

/-- The row comes before another by sort key, or by arrival where the sort keys are equal. -/
def Row.Precedes (compare : SortKey → SortKey → Ordering) (a b : Row) : Prop :=
  compare a.columns b.columns = .lt ∨
    compare a.columns b.columns = .eq ∧ a.arrival < b.arrival

theorem Row.Precedes.ne_gt {compare : SortKey → SortKey → Ordering} {a b : Row}
    (h : a.Precedes compare b) : compare a.columns b.columns ≠ .gt := by
  rcases h with h | ⟨h, -⟩
  all_goals rw [h]; decide

/-- The columns that a command brings are as the schema has them. -/
def Command.Follows (c : Command) (σ : Schema) : Prop :=
  match c with
  | .put _ columns _ => columns.Follows σ
  | .setColumn _ index column => (column.kind, column.descending) = σ index
  | _ => True

namespace Table

/-- The sort keys of the rows follow the schema, and the rows stand in order. -/
structure Ordered (t : Table) (σ : Schema) : Prop where
  collation : IsPreorder t.collation
  follows : ∀ e ∈ t.entries, e.columns.Follows σ
  arrived : ∀ e ∈ t.entries, e.arrival < t.arrivals
  sorted : t.entries.Pairwise fun a b => a.toRow.Precedes t.compare b.toRow

variable {t : Table} {σ : Schema} {columns : SortKey}

theorem ordered_empty (settings : Settings) {collation : Collation} (h : IsPreorder collation)
    (σ : Schema) : (empty settings collation).Ordered σ where
  collation := h
  follows e he := by cases he
  arrived e he := by cases he
  sorted := .nil

theorem Ordered.transCmp (h : t.Ordered σ) : Std.TransCmp (Schema.compare t.collation σ) :=
  Schema.transCmp_compare h.collation σ

theorem Ordered.compare_eq (h : t.Ordered σ) {a : SortKey} (ha : a.Follows σ) (b : SortKey) :
    t.compare a b = Schema.compare t.collation σ a b :=
  Schema.compare_eq h.collation ha

theorem Ordered.compare_swap (h : t.Ordered σ) {a b : SortKey} (ha : a.Follows σ)
    (hb : b.Follows σ) : t.compare a b = (t.compare b a).swap := by
  rw [h.compare_eq ha, h.compare_eq hb]
  exact Schema.compare_swap h.collation σ a b

/-! ## The place of a row -/

/-- The rows that a new row comes before are the last ones. -/
theorem Ordered.comesBefore_mono (h : t.Ordered σ) (hk : columns.Follows σ) :
    t.entries.Pairwise fun a b =>
      t.comesBefore columns a = true → t.comesBefore columns b = true := by
  have := h.transCmp
  apply h.sorted.imp_of_mem
  intro a b ha hb hab hlt
  have hle := Ordering.isLE_iff_ne_gt.2 hab.ne_gt
  rw [h.compare_eq (h.follows a ha)] at hle
  rw [comesBefore, h.compare_eq hk, Ordering.isLT_iff_eq_lt] at hlt ⊢
  exact Std.TransCmp.lt_of_lt_of_isLE hlt hle

theorem Ordered.lower_eq (h : t.Ordered σ) (hk : columns.Follows σ) :
    t.lower columns = t.entries.filter (!t.comesBefore columns ·) :=
  (t.lower_eq_filter columns (h.comesBefore_mono hk)).1

theorem Ordered.upper_eq (h : t.Ordered σ) (hk : columns.Follows σ) :
    t.upper columns = t.entries.filter (t.comesBefore columns) :=
  (t.lower_eq_filter columns (h.comesBefore_mono hk)).2

theorem Ordered.attach (h : t.Ordered σ) (key : Key) (hk : columns.Follows σ) (hidden : Bool) :
    (t.attach key columns hidden).2.Ordered σ where
  collation := h.collation
  follows e he := by
    rcases (mem_attach ..).1 he with rfl | he
    · exact hk
    · exact h.follows e he
  arrived e he := by
    show e.arrival < t.arrivals + 1
    rcases (mem_attach ..).1 he with rfl | he
    · exact Nat.lt_succ_self _
    · exact Nat.lt_succ_of_lt (h.arrived e he)
  sorted := by
    have hs := h.sorted
    rw [← t.lower_append_upper columns, List.pairwise_append] at hs
    obtain ⟨hl, hu, hlu⟩ := hs
    rw [entries_attach, List.pairwise_append, List.pairwise_cons]
    refine ⟨hl, ⟨fun b hb => ?_, hu⟩, fun a ha b hb => ?_⟩
    · rw [h.upper_eq hk, List.mem_filter] at hb
      exact .inl (Ordering.isLT_iff_eq_lt.1 hb.2)
    · rcases List.mem_cons.1 hb with rfl | hb
      · -- a row that the new one is put behind comes before it or is equal to it
        rw [h.lower_eq hk, List.mem_filter] at ha
        obtain ⟨hm, hn⟩ := ha
        have hn : t.compare columns a.columns ≠ .lt := fun hlt => by
          rw [comesBefore, hlt] at hn
          cases hn
        show a.toRow.Precedes t.compare _
        rw [Row.Precedes]
        show t.compare a.columns columns = .lt ∨ t.compare a.columns columns = .eq ∧ _
        rw [h.compare_swap (h.follows a hm) hk]
        cases hc : t.compare columns a.columns with
        | lt => exact absurd hc hn
        | eq => exact .inr ⟨rfl, h.arrived a hm⟩
        | gt => exact .inl rfl
      · exact hlu a ha b hb

/-! ## Changes of the rows -/

theorem Ordered.of_sublist {t' : Table} (h : t.Ordered σ)
    (hs : (t'.entries.map (·.toRow)).Sublist (t.entries.map (·.toRow)))
    (hc : t'.collation = t.collation) (ha : t.arrivals ≤ t'.arrivals) : t'.Ordered σ where
  collation := hc ▸ h.collation
  follows e he := by
    obtain ⟨d, hd, hr⟩ := List.mem_map.1 (hs.subset (List.mem_map_of_mem he))
    have hf := h.follows d hd
    rwa [show d.columns = e.columns from congrArg Row.columns hr] at hf
  arrived e he := by
    obtain ⟨d, hd, hr⟩ := List.mem_map.1 (hs.subset (List.mem_map_of_mem he))
    have hlt := h.arrived d hd
    rw [show d.arrival = e.arrival from congrArg Row.arrival hr] at hlt
    omega
  sorted := by
    have hp := (List.pairwise_map.2 h.sorted).sublist hs
    rw [List.pairwise_map] at hp
    rwa [show t'.compare = t.compare from congrArg SortKey.compare hc]

theorem Ordered.of_sameRows {t' : Table} (h : t.Ordered σ) (hs : SameRows t'.entries t.entries)
    (hc : t'.collation = t.collation) (ha : t'.arrivals = t.arrivals) : t'.Ordered σ :=
  h.of_sublist (hs ▸ .refl _) hc (Nat.le_of_eq ha.symm)

theorem Ordered.of_same {t' : Table} (h : t.Ordered σ) (hs : t.SameContents t') : t'.Ordered σ :=
  h.of_sameRows (hs.entries ▸ .refl _) hs.collation hs.arrivals

theorem Ordered.detach (h : t.Ordered σ) {f : Focus} {xs ys : List Entry} {e : Entry}
    (hs : f.Splits t.tree xs e ys) : (t.detach f).Ordered σ := by
  refine h.of_sublist (List.Sublist.map _ ?_) rfl (Nat.le_refl _)
  rw [entries_detach hs, entries_of_splits hs]
  exact (List.sublist_cons_self e ys).append_left xs

theorem Ordered.resort (h : t.Ordered σ) {f : Focus} {xs ys : List Entry} {e : Entry}
    (hs : f.Splits t.tree xs e ys) (key : Key) (hk : columns.Follows σ) (hidden : Bool) :
    (t.resort f key columns hidden).Ordered σ :=
  ((h.detach hs).attach key hk hidden).of_same ⟨rfl, rfl, rfl, rfl, rfl⟩

theorem Ordered.note (h : t.Ordered σ) (e : Tally.Event) : (t.note e).Ordered σ :=
  h.of_same ⟨rfl, rfl, rfl, rfl, rfl⟩

/-! ## Commands and runs -/

theorem Ordered.perform_put (h : t.Ordered σ) (hs : t.Sound) (key : Key) (hk : columns.Follows σ)
    (hidden : Bool) : (t.perform (.put key columns hidden)).2.Ordered σ := by
  rcases t.perform_put key columns hidden with ⟨-, he⟩ | ⟨-, -, he⟩ | ⟨f, -, -, -, he⟩ |
    ⟨f, -, hf, -, he⟩
  all_goals rw [he]
  · exact h
  · exact (h.attach key hk hidden).note _
  · exact h.note _
  · exact (h.resort (hs.splits_of_focus? hf).1 key hk hidden).note _

theorem Ordered.follows_recolumned (h : t.Ordered σ) (hs : t.Sound) {key : Key} {index : Nat}
    {column : Column} (hc : (column.kind, column.descending) = σ index) {hidden : Bool}
    (hr : t.recolumned? key index column = some (columns, hidden)) : columns.Follows σ := by
  unfold recolumned? at hr
  cases hf : t.focus? key with
  | none =>
    rw [hf] at hr
    cases hr
  | some f =>
    simp only [hf] at hr
    split at hr
    · cases hr
      obtain ⟨hsp, -⟩ := hs.splits_of_focus? hf
      exact Schema.follows_set (h.follows f.entry (mem_of_splits hsp)) hc
    · cases hr

theorem Ordered.perform (h : t.Ordered σ) (hs : t.Sound) {c : Command} (hc : c.Follows σ) :
    (t.perform c).2.Ordered σ := by
  cases c using Command.edits_cases with
  | same c he => exact h.of_same (t.perform_same he)
  | put key columns hidden => exact h.perform_put hs key hc hidden
  | setColumn key index column =>
    rw [perform_setColumn]
    split
    · rename_i columns hidden hr
      exact h.perform_put hs key (h.follows_recolumned hs hc hr) hidden
    · exact h
  | erase key =>
    rcases t.perform_erase key with ⟨-, he⟩ | ⟨f, hf, he⟩
    all_goals rw [he]
    · exact h
    · exact (h.detach (hs.splits_of_focus? hf).1).note _
  | clear => exact h.of_sublist (List.nil_sublist _) rfl (Nat.le_refl _)
  | collapse key =>
    rcases t.perform_collapse key with ⟨-, he⟩ | ⟨f, hf, he⟩
    all_goals rw [he]
    · exact h
    · exact (h.of_sameRows (sameRows_collapsed (hs.splits_of_focus? hf).1) rfl rfl).note _
  | expand key =>
    rcases t.perform_expand key with he | ⟨f, n, hf, he⟩
    all_goals rw [he]
    · exact h
    · exact (h.of_sameRows (sameRows_expanded (hs.splits_of_focus? hf).1) rfl rfl).note _

theorem Ordered.run (h : t.Ordered σ) (hs : t.Sound) {commands : List Command}
    (hc : ∀ c ∈ commands, c.Follows σ) : (t.run commands).Ordered σ := by
  induction commands generalizing t with
  | nil => exact h
  | cons c rest ih =>
    exact ih (h.perform hs (hc c List.mem_cons_self)) (hs.perform c)
      fun d hd => hc d (List.mem_cons_of_mem c hd)

/-- The table is what some commands, all of whose columns are as the schema has them, make of a
table without rows whose collation is a total preorder. -/
def ReachableUnder (t : Table) (σ : Schema) : Prop :=
  ∃ settings collation commands, settings.validate = .ok () ∧ IsPreorder collation ∧
    (∀ c ∈ commands, c.Follows σ) ∧ t = (empty settings collation).run commands

theorem ReachableUnder.reachable (h : t.ReachableUnder σ) : t.Reachable := by
  obtain ⟨settings, collation, commands, hv, -, -, rfl⟩ := h
  exact ⟨settings, collation, commands, hv, rfl⟩

theorem ReachableUnder.ordered (h : t.ReachableUnder σ) : t.Ordered σ := by
  obtain ⟨settings, collation, commands, -, hp, hc, rfl⟩ := h
  exact (ordered_empty settings hp σ).run (sound_empty settings collation) hc

theorem Ordered.verify_eq (h : t.Ordered σ) : t.verify = .ok () := by
  rcases t.verify_cases with ⟨-, hv⟩ | ⟨xs, a, b, ys, he, -, hgt, -⟩
  · exact hv
  · have hp := h.sorted
    rw [he, List.pairwise_append, List.pairwise_cons] at hp
    rcases hp.2.1.1 b List.mem_cons_self with hlt | ⟨heq, -⟩
    · cases hgt.symm.trans hlt
    · cases hgt.symm.trans heq

end Table

end LiveTable
