import LiveTable.Proofs.Bisect
import LiveTable.Proofs.Column.Prefix
import LiveTable.Proofs.Table.Ordered
import LiveTable.Proofs.Table.Steering

/-!
# What collapsing hides

Collapsing walks from the header on and stops at the first row that is not under it. In a table in
order nothing is missed that way: the rows that begin with the sort key of the header are a leading
part of the rows after it (`Ordered.leading_isUnder`), and a row with more columns that begins with
that sort key is always after the header (`Ordered.mem_categoryIn_iff`). So the members of a
category are told by their sort keys, wherever and whenever they were put, and the collapse hides
them and nothing else (`collapsesExactly_of_reachableUnder`).
-/

namespace LiveTable

theorem visibleCount_hide (rows : List Entry) : visibleCount (rows.map Entry.hide) = 0 := by
  rw [visibleCount, List.countP_eq_zero]
  intro a ha
  obtain ⟨b, -, rfl⟩ := List.mem_map.1 ha
  exact Bool.false_ne_true

namespace Table

/-- The rows of a category: those after the header that begin with its sort key. -/
def categoryIn (t : Table) (header : Entry) (ys : List Entry) : List Entry :=
  ys.filter (t.isUnder header.columns)

/-- The sort key begins with another one and has more columns than it. -/
def Extends (t : Table) (header columns : SortKey) : Prop :=
  header.length < columns.length ∧
    SortKey.comparePrefix t.collation header.length header columns = .eq

variable {t : Table} {σ : Schema} {xs ys : List Entry} {e a : Entry}

theorem isUnder_iff {header : SortKey} :
    t.isUnder header a = true ↔
      SortKey.comparePrefix t.collation header.length header a.columns = .eq :=
  decide_eq_true_iff

/-! ## Members in a table in order -/

theorem Ordered.isUnder_self (h : t.Ordered σ) (he : e ∈ t.entries) :
    t.isUnder e.columns e = true := by
  have := h.transCmp
  have hself : t.compare e.columns e.columns = .eq := by
    rw [h.compare_eq (h.follows e he)]
    exact Std.ReflCmp.compare_self
  exact isUnder_iff.2 (SortKey.comparePrefix_of_compare hself)

/-- The rows of a category are a leading part of the rows after its header. -/
theorem Ordered.leading_isUnder (h : t.Ordered σ) (he : t.entries = xs ++ e :: ys) :
    Leading (t.isUnder e.columns) ys := by
  have hs := h.sorted
  rw [he, List.pairwise_append, List.pairwise_cons] at hs
  obtain ⟨-, ⟨hafter, hsorted⟩, -⟩ := hs
  have hm {a : Entry} (ha : a ∈ ys) : a ∈ t.entries := by simp [he, ha]
  have hmid : e ∈ t.entries := by simp [he]
  refine hsorted.imp_of_mem fun {a b} ha _ hab hb => ?_
  exact isUnder_iff.2 (Schema.comparePrefix_between h.collation _ (h.follows e hmid)
    (h.follows a (hm ha)) (hafter a ha).ne_gt hab.ne_gt (isUnder_iff.1 hb))

theorem Ordered.membersIn_eq (h : t.Ordered σ) (he : t.entries = xs ++ e :: ys) :
    t.membersIn e ys = t.categoryIn e ys :=
  (h.leading_isUnder he).takeWhile_eq

theorem length_le_of_mem_categoryIn (ha : a ∈ t.categoryIn e ys) :
    e.columns.length ≤ a.columns.length :=
  SortKey.length_le_of_comparePrefix (isUnder_iff.1 (List.mem_filter.1 ha).2)

theorem Ordered.mem_after (h : t.Ordered σ) (he : t.entries = xs ++ e :: ys) (ha : a ∈ t.entries)
    (hlt : t.compare e.columns a.columns = .lt) : a ∈ ys := by
  have hmid : e ∈ t.entries := by simp [he]
  have hs := h.sorted
  rw [he, List.pairwise_append] at hs
  have hswap := h.compare_swap (h.follows a ha) (h.follows e hmid)
  rw [hlt] at hswap
  rw [he] at ha
  rcases List.mem_append.1 ha with hx | ha
  · exact absurd hswap (hs.2.2 a hx e List.mem_cons_self).ne_gt
  · rcases List.mem_cons.1 ha with rfl | hy
    · cases hlt.symm.trans hswap
    · exact hy

/-- The rows of a category are those that extend the sort key of the header, wherever they are, and
those tied with the header that stand after it. -/
theorem Ordered.mem_categoryIn_iff (h : t.Ordered σ) (he : t.entries = xs ++ e :: ys) :
    a ∈ t.categoryIn e ys ↔ a ∈ t.entries ∧ t.Extends e.columns a.columns ∨
      a ∈ ys ∧ t.compare e.columns a.columns = .eq := by
  have hafter (ha : a ∈ ys) : a ∈ t.entries := by simp [he, ha]
  rw [categoryIn, List.mem_filter, isUnder_iff]
  constructor
  · rintro ⟨ha, hu⟩
    rcases Nat.lt_or_ge e.columns.length a.columns.length with hl | hl
    · exact .inl ⟨hafter ha, hl, hu⟩
    · exact .inr ⟨ha, SortKey.compare_of_comparePrefix hu hl⟩
  · rintro (⟨ha, hl, hu⟩ | ⟨ha, heq⟩)
    · exact ⟨h.mem_after he ha (SortKey.compare_of_extends hu hl), hu⟩
    · exact ⟨ha, SortKey.comparePrefix_of_compare heq⟩

/-! ## Families -/

/-- A family is the header, if it is under itself, with its members. -/
theorem Sound.perform_family_split (h : t.Sound) (he : t.entries = xs ++ e :: ys)
    (hself : t.isUnder e.columns e = true) :
    (t.perform (.family e.key)).1 = .ok (.keys (e.key :: (t.membersIn e ys).map (·.key))) := by
  have hfamily := h.family_split he
  rw [List.takeWhile_cons_of_pos hself] at hfamily
  rw [perform_of_ok (c := .family e.key) (congrArg (Except.map _) hfamily)]
  rfl

theorem Sound.perform_family_collapse (h : t.Sound) (he : t.entries = xs ++ e :: ys)
    (hself : t.isUnder e.columns e = true) :
    ((t.perform (.collapse e.key)).2.perform (.family e.key)).1 =
      .ok (.keys (e.key :: (t.membersIn e ys).map (·.key))) := by
  have hentries := (h.perform_collapse_split he).2.1
  have hu := t.isUnder_perform (.collapse e.key)
  have hmembers := (membersIn_map Entry.hide_toRow t e ys).1
  rw [(h.perform _).perform_family_split hentries (by rwa [hu])]
  unfold membersIn at hmembers ⊢
  rw [hu, hmembers, (SameRows.map Entry.hide_toRow _).keys]

/-! ## Exactness -/

/-- Collapsing hides the category of a header, and nothing else. -/
structure CollapsesExactly (t : Table) (header : Entry) (ys : List Entry) : Prop where
  /-- The rows of the category are answered with, in table order. -/
  answered : (t.perform (.collapse header.key)).1 =
    .ok (.keys ((t.categoryIn header ys).map (·.key)))
  wide (a : Entry) : a ∈ t.categoryIn header ys → header.columns.length ≤ a.columns.length
  mem_iff (a : Entry) : a ∈ t.categoryIn header ys ↔
    a ∈ t.entries ∧ t.Extends header.columns a.columns ∨
      a ∈ ys ∧ t.compare header.columns a.columns = .eq
  entries : (t.perform (.collapse header.key)).2.entries =
    t.entries.map fun a => if a ∈ t.categoryIn header ys then a.hide else a
  /-- As many rows are visible as before, less those of the category that were. -/
  visible : (t.perform (.collapse header.key)).2.visible + visibleCount (t.categoryIn header ys) =
    t.visible
  cursor (a : Entry) : a ∈ t.categoryIn header ys →
    (t.perform (.collapse header.key)).2.cursor ≠ .row a.key
  /-- The family of the header has the same rows before and after. -/
  family : (t.perform (.family header.key)).1 =
    .ok (.keys (header.key :: (t.categoryIn header ys).map (·.key)))
  family_after : ((t.perform (.collapse header.key)).2.perform (.family header.key)).1 =
    .ok (.keys (header.key :: (t.categoryIn header ys).map (·.key)))

/-- A cursor that leaves the members of a category does not come to rest on one of them. -/
theorem Sound.cursor_perform_collapse_ne (h : t.Sound) (he : t.entries = xs ++ e :: ys)
    (ha : a ∈ t.membersIn e ys) : (t.perform (.collapse e.key)).2.cursor ≠ .row a.key := by
  have hd := entries_eq_members he ▸ h.distinct
  rw [(h.perform_collapse_split he).2.2]
  split
  · intro hc
    -- the cursor goes to a row beyond the members, which has a key of its own
    cases hrest : (t.beyondIn e ys).dropWhile (·.hidden) with
    | nil => rw [hrest] at hc; cases hc
    | cons b rest =>
      rw [hrest] at hc
      have hb : b ∈ t.beyondIn e ys := List.dropWhile_subset _ (hrest ▸ List.mem_cons_self)
      exact hd.of_append_right.key_ne ha hb (Position.row.inj hc).symm
  · rename_i hn
    exact fun hc => hn (List.mem_map.2 ⟨a, ha, hc.symm⟩)

/-- Under one schema and a total preorder, collapsing is exact and complete. -/
theorem collapsesExactly_of_reachableUnder (h : t.ReachableUnder σ)
    (he : t.entries = xs ++ e :: ys) : t.CollapsesExactly e ys := by
  have hs := h.reachable.sound
  have ho := h.ordered
  have hself := ho.isUnder_self (e := e) (by simp [he])
  have hm := ho.membersIn_eq he
  obtain ⟨hreply, hentries, -⟩ := hs.perform_collapse_split he
  exact {
    answered := hm ▸ hreply
    wide := fun a => length_le_of_mem_categoryIn
    mem_iff := fun a => ho.mem_categoryIn_iff he
    entries := by rw [← hm, hentries, hs.map_members he]
    visible := by
      rw [(hs.perform _).visible_eq, hs.visible_eq, ← hm, hentries, entries_eq_members he]
      simp only [visibleCount_append, visibleCount_cons, visibleCount_hide]
      simp only [visibleCount, List.countP_nil]
      omega
    cursor := fun a ha => hs.cursor_perform_collapse_ne he (hm ▸ ha)
    family := hm ▸ hs.perform_family_split he hself
    family_after := hm ▸ hs.perform_family_collapse he hself }

def turned : Schema := fun i => (.binary, i = 1)

/-- A header with another one tied with it and two rows under it, one of them hidden, all but the
tied one put before it, and a row of another category. -/
def twoHeaders : Table :=
  (empty {} .bytewise).run [.put ⟨1, 5⟩ [.binary [2]] false,
    .put ⟨1, 2⟩ [.binary [1], (Column.binary [5]).down] false,
    .put ⟨1, 3⟩ [.binary [1], (Column.binary [7]).down] true, .put ⟨1, 1⟩ [.binary [1]] false,
    .put ⟨1, 4⟩ [.binary [1]] false, .goTo ⟨1, 2⟩]

/-- The tied header and both rows under it are hidden, and the cursor leaves the last one. -/
theorem collapsesExactly_of_reachableUnder_twoHeaders :
    twoHeaders.ReachableUnder turned ∧
      (twoHeaders.perform (.collapse ⟨1, 1⟩)).1 = .ok (.keys [⟨1, 4⟩, ⟨1, 3⟩, ⟨1, 2⟩]) ∧
      (twoHeaders.perform (.collapse ⟨1, 1⟩)).2.visible + 2 = twoHeaders.visible ∧
      (twoHeaders.perform (.collapse ⟨1, 1⟩)).2.cursor ≠ .row ⟨1, 2⟩ := by
  have hone (b : Bytes) : SortKey.Follows [.binary b] turned :=
    Schema.follows_cons.2 ⟨rfl, Schema.follows_nil _⟩
  have htwo (b d : Bytes) : SortKey.Follows [.binary b, (Column.binary d).down] turned :=
    Schema.follows_cons.2 ⟨rfl, Schema.follows_cons.2 ⟨rfl, Schema.follows_nil _⟩⟩
  have hrows : twoHeaders.entries = [] ++ ⟨⟨⟨1, 1⟩, [.binary [1]], 3⟩, false⟩ ::
      [⟨⟨⟨1, 4⟩, [.binary [1]], 4⟩, false⟩,
        ⟨⟨⟨1, 3⟩, [.binary [1], (Column.binary [7]).down], 2⟩, true⟩,
        ⟨⟨⟨1, 2⟩, [.binary [1], (Column.binary [5]).down], 1⟩, false⟩,
        ⟨⟨⟨1, 5⟩, [.binary [2]], 0⟩, false⟩] := by
    cbv
  have ht : twoHeaders.ReachableUnder turned := by
    refine ⟨{}, Collation.bytewise, _, rfl, Collation.isPreorder_bytewise, ?_, rfl⟩
    simp only [List.forall_mem_cons]
    exact ⟨hone _, htwo _ _, htwo _ _, hone _, hone _, trivial, by simp⟩
  have hexact := collapsesExactly_of_reachableUnder ht hrows
  exact ⟨ht, hexact.answered, hexact.visible,
    hexact.cursor ⟨⟨⟨1, 2⟩, [.binary [1], (Column.binary [5]).down], 1⟩, false⟩
      (List.mem_filter.2 ⟨by decide, by cbv⟩)⟩

end Table

end LiveTable
