import LiveTable.Proofs.Table.Answers
import Mathlib

/-!
# Answers do not depend on history

Two tables under one collation whose keys have the same sort keys and the same visibility list the
same rows in the same order, if no two rows compare as equal: the order leaves no choice then, and
the arrivals, which tell in which order rows came to their places, break no tie
(`Ordered.sameSnapshots`). As every read is answered from the list of rows, it is answered alike,
whatever commands led to the two tables and whatever the shapes of their trees
(`answersAlike_of_contents`).
-/

namespace LiveTable

/-! ## Rows that differ in arrival -/

/-- The two lists differ in the arrivals of rows at most. -/
def SameSnapshots (xs ys : List Entry) : Prop := xs.map (·.snapshot) = ys.map (·.snapshot)

namespace SameSnapshots

variable {rows xs ys : List Entry} {e : Entry} {key : Key}

theorem keys (h : SameSnapshots xs ys) : xs.map (·.key) = ys.map (·.key) := by
  have := congrArg (List.map Snapshot.key) h
  rwa [List.map_map, List.map_map] at this

theorem hasKey (h : SameSnapshots xs ys) : HasKey xs key ↔ HasKey ys key := by
  have hm (zs : List Entry) : HasKey zs key ↔ key ∈ zs.map (·.key) := by simp [HasKey]
  rw [hm, hm, h.keys]

theorem filter (h : SameSnapshots xs ys) (p : Snapshot → Bool) :
    SameSnapshots (xs.filter (p ·.snapshot)) (ys.filter (p ·.snapshot)) := by
  have := congrArg (List.filter p) h
  rwa [List.filter_map, List.filter_map] at this

theorem takeWhile (h : SameSnapshots xs ys) (p : Snapshot → Bool) :
    SameSnapshots (xs.takeWhile (p ·.snapshot)) (ys.takeWhile (p ·.snapshot)) := by
  have := congrArg (List.takeWhile p) h
  rwa [List.takeWhile_map, List.takeWhile_map] at this

theorem visibleCount_eq (h : SameSnapshots xs ys) : visibleCount xs = visibleCount ys := by
  have := congrArg (List.countP fun s => !s.hidden) h
  rwa [List.countP_map, List.countP_map] at this

theorem find?_reverse (h : SameSnapshots xs ys) (p : Snapshot → Bool) :
    (xs.reverse.find? (p ·.snapshot)).map (·.key) =
      (ys.reverse.find? (p ·.snapshot)).map (·.key) := by
  have := congrArg (fun rows => (rows.reverse.find? p).map (·.key)) h
  simp only [← List.map_reverse, List.find?_map, Option.map_map] at this
  exact this

theorem head?_filter (h : SameSnapshots xs ys) (p : Snapshot → Bool) :
    (xs.head?.filter (p ·.snapshot)).map (·.key) =
      (ys.head?.filter (p ·.snapshot)).map (·.key) := by
  have := congrArg (fun rows => (rows.head?.filter p).map (·.key)) h
  simp only [List.head?_map, Option.filter_map, Option.map_map] at this
  exact this

theorem first_eq (h : SameSnapshots xs ys) (none : Position) :
    Position.first xs none = Position.first ys none := by
  have hk := h.keys
  cases xs <;> cases ys <;> simp_all [Position.first]

theorem find?_snapshot (h : SameSnapshots xs ys) (p : Snapshot → Bool) :
    (xs.find? (p ·.snapshot)).map (·.snapshot) = (ys.find? (p ·.snapshot)).map (·.snapshot) := by
  have := congrArg (List.find? p) h
  rwa [List.find?_map, List.find?_map] at this

theorem split (h : SameSnapshots (xs ++ e :: ys) rows) :
    ∃ xs' e' ys', rows = xs' ++ e' :: ys' ∧ SameSnapshots xs xs' ∧ e.snapshot = e'.snapshot ∧
      SameSnapshots ys ys' := by
  rw [SameSnapshots, List.map_append, List.map_cons] at h
  obtain ⟨xs', rest, rfl, hx, hrest⟩ := List.append_eq_map_iff.1 h
  obtain ⟨e', ys', rfl, he, hy⟩ := List.map_eq_cons_iff.1 hrest
  exact ⟨xs', e', ys', rfl, hx.symm, he.symm, hy.symm⟩

end SameSnapshots

namespace Table

/-- The sort key that a key has, and whether its row is hidden. -/
def contents (t : Table) (key : Key) : Option (SortKey × Bool) :=
  (t.entries.find? (·.key = key)).map fun e => (e.columns, e.hidden)

/-- No two rows compare as equal. -/
def Untied (t : Table) : Prop :=
  ∀ a ∈ t.entries, ∀ b ∈ t.entries, t.compare a.columns b.columns = .eq → a = b

/-- Every read is answered in the one table as it is in the other. -/
structure AnswersAlike (t t' : Table) : Prop where
  allRows (hidden : Bool) : (t.allRows hidden).1 = (t'.allRows hidden).1
  page (start count : Nat) : (t.page start count).1 = (t'.page start count).1
  rank (key : Key) : t.rank key = t'.rank key
  find? (probe : SortKey) : t.find? probe = t'.find? probe
  lowerBound (probe : SortKey) : (t.lowerBound probe).cursor = (t'.lowerBound probe).cursor
  visibleBefore (key : Key) : t.visibleBefore key = t'.visibleBefore key
  family (key : Key) : t.family key = t'.family key

variable {t t' : Table} {σ : Schema}

/-! ## Contents tell the rows -/

theorem Sound.mem_snapshots_iff (h : t.Sound) (s : Snapshot) :
    s ∈ t.entries.map (·.snapshot) ↔ t.contents s.key = some (s.columns, s.hidden) := by
  rw [List.mem_map, contents, Option.map_eq_some_iff]
  constructor
  · rintro ⟨e, he, rfl⟩
    exact ⟨e, h.distinct.find?_eq he, rfl⟩
  · rintro ⟨e, he, hs⟩
    have hk : e.key = s.key := by simpa using List.find?_some he
    obtain ⟨hc, hh⟩ := Prod.mk.inj hs
    exact ⟨e, List.mem_of_find?_eq_some he, by rw [Entry.snapshot, hk, hc, hh]⟩

theorem Sound.nodup_snapshots (h : t.Sound) : (t.entries.map (·.snapshot)).Nodup := by
  refine List.Nodup.of_map Snapshot.key ?_
  rw [List.map_map]
  exact h.distinct

theorem Ordered.sorted_snapshots (h : t.Ordered σ) :
    (t.entries.map (·.snapshot)).Pairwise fun a b => t.compare a.columns b.columns ≠ .gt :=
  List.pairwise_map.2 (h.sorted.imp Row.Precedes.ne_gt)

/-- Where no two rows compare as equal, the contents tell the list of rows. -/
theorem Ordered.sameSnapshots (h : t.Ordered σ) (hs : t.Sound) (h' : t'.Ordered σ)
    (hs' : t'.Sound) (hc : t'.collation = t.collation)
    (same : ∀ key, t.contents key = t'.contents key) (untied : t.Untied) :
    SameSnapshots t.entries t'.entries := by
  have hmem (s : Snapshot) :
      s ∈ t.entries.map (·.snapshot) ↔ s ∈ t'.entries.map (·.snapshot) := by
    rw [hs.mem_snapshots_iff, hs'.mem_snapshots_iff, same]
  have hsorted := h'.sorted_snapshots
  rw [show t'.compare = t.compare from congrArg SortKey.compare hc] at hsorted
  refine List.Perm.eq_of_pairwise ?_ h.sorted_snapshots hsorted
    ((List.perm_ext_iff_of_nodup hs.nodup_snapshots hs'.nodup_snapshots).2 hmem)
  -- two rows neither of which is greater compare as equal
  intro a b ha hb hab hba
  obtain ⟨d, hd, rfl⟩ := List.mem_map.1 ha
  obtain ⟨e, he, rfl⟩ := List.mem_map.1 ((hmem b).2 hb)
  have hswap := h.compare_swap (h.follows d hd) (h.follows e he)
  cases hed : t.compare e.columns d.columns with
  | lt =>
    rw [hed] at hswap
    exact absurd hswap hab
  | eq => rw [untied e he d hd hed]
  | gt => exact absurd hed hba

/-! ## The rows tell the answers -/

variable (h : t.Sound) (h' : t'.Sound) (alike : SameSnapshots t.entries t'.entries)
include h h' alike

theorem allRows_alike (hidden : Bool) : (t.allRows hidden).1 = (t'.allRows hidden).1 := by
  rw [h.allRows_fst, h'.allRows_fst]
  exact (alike.filter fun s => hidden || !s.hidden).keys

theorem page_alike (start count : Nat) : (t.page start count).1 = (t'.page start count).1 := by
  rw [h.page_fst, h'.page_fst, List.map_take, List.map_drop, List.map_take, List.map_drop]
  exact congrArg (fun keys => (keys.drop start).take count) (alike.filter fun s => !s.hidden).keys

omit h h' in
/-- A key has no row in either table, or one in each with rows that are alike around it. -/
theorem key_cases (key : Key) :
    (¬ HasKey t.entries key ∧ ¬ HasKey t'.entries key) ∨
    ∃ xs e ys xs' e' ys', t.entries = xs ++ e :: ys ∧ t'.entries = xs' ++ e' :: ys' ∧
      e.key = key ∧ e'.key = key ∧ e.columns = e'.columns ∧ SameSnapshots xs xs' ∧
      SameSnapshots (e :: ys) (e' :: ys') := by
  by_cases hk : HasKey t.entries key
  · obtain ⟨xs, e, ys, he, rfl⟩ := hk.split
    obtain ⟨xs', e', ys', he', hx, hs, hy⟩ := SameSnapshots.split (he ▸ alike)
    refine .inr ⟨xs, e, ys, xs', e', ys', he, he', rfl, (congrArg Snapshot.key hs).symm,
      congrArg Snapshot.columns hs, hx, ?_⟩
    rw [SameSnapshots, List.map_cons, hs, hy, List.map_cons]
  · exact .inl ⟨hk, fun hk' => hk (alike.hasKey.2 hk')⟩

theorem rank_alike (key : Key) : t.rank key = t'.rank key := by
  rcases key_cases alike key with ⟨hk, hk'⟩ | ⟨xs, e, ys, xs', e', ys', he, he', rfl, hk, -, hx, -⟩
  · rw [h.rank_of_not hk, h'.rank_of_not hk']
  · rw [h.rank_split he, ← hk, h'.rank_split he', hx.visibleCount_eq]

theorem visibleBefore_alike (key : Key) : t.visibleBefore key = t'.visibleBefore key := by
  rcases key_cases alike key with ⟨hk, hk'⟩ | ⟨xs, e, ys, xs', e', ys', he, he', rfl, hk, -, hx, -⟩
  · rw [h.visibleBefore_of_not hk, h'.visibleBefore_of_not hk']
  · rw [h.visibleBefore_split he, ← hk, h'.visibleBefore_split he']
    exact congrArg Except.ok (hx.find?_reverse fun s => !s.hidden)

theorem family_alike (hc : t'.collation = t.collation) (key : Key) :
    t.family key = t'.family key := by
  rcases key_cases alike key with ⟨hk, hk'⟩ |
    ⟨xs, e, ys, xs', e', ys', he, he', rfl, hk, hcolumns, -, hy⟩
  · rw [h.family_of_not hk, h'.family_of_not hk']
  · rw [h.family_split he, ← hk, h'.family_split he', ← hcolumns]
    unfold isUnder
    rw [hc]
    exact congrArg Except.ok (hy.takeWhile fun s =>
      SortKey.comparePrefix t.collation e.columns.length e.columns s.columns = .eq).keys

omit h h'

/-- In tables in order a search comes to rows that are alike. -/
theorem reach_bound_alike (ho : t.Ordered σ) (ho' : t'.Ordered σ)
    (hc : t'.collation = t.collation) (probe : SortKey) :
    SameSnapshots (reach .right (t.bound probe)) (reach .right (t'.bound probe)) := by
  rw [ho.reach_bound, ho'.reach_bound, compare, compare, hc]
  exact alike.filter fun s => !(SortKey.compare t.collation s.columns probe).isLT

/-- Tables in order with rows that are alike answer every read alike. -/
theorem Ordered.answersAlike (ho : t.Ordered σ) (h : t.Sound) (ho' : t'.Ordered σ) (h' : t'.Sound)
    (hc : t'.collation = t.collation) : t.AnswersAlike t' where
  allRows := allRows_alike h h' alike
  page := page_alike h h' alike
  rank := rank_alike h h' alike
  find? probe := by
    rw [find?_eq, find?_eq, compare, compare, hc]
    exact (reach_bound_alike alike ho ho' hc probe).head?_filter fun s =>
      !(SortKey.compare t.collation probe s.columns).isLT
  lowerBound probe := by
    show Position.orEnd _ = Position.orEnd _
    rw [Position.orEnd_eq .right, Position.orEnd_eq .right]
    exact (reach_bound_alike alike ho ho' hc probe).first_eq _
  visibleBefore := visibleBefore_alike h h' alike
  family := family_alike h h' alike hc

omit alike

/-! ## Two histories -/

/-- Whatever commands two tables have come from, they answer every read alike if they have the same
contents and no ties. -/
theorem answersAlike_of_contents (h : t.ReachableUnder σ) (h' : t'.ReachableUnder σ)
    (hc : t'.collation = t.collation) (same : ∀ key, t.contents key = t'.contents key)
    (untied : t.Untied) : t.AnswersAlike t' :=
  h.ordered.answersAlike
    (h.ordered.sameSnapshots h.reachable.sound h'.ordered h'.reachable.sound hc same untied)
    h.reachable.sound h'.ordered h'.reachable.sound hc

theorem contents_eq (alike : SameSnapshots t.entries t'.entries) (key : Key) :
    t.contents key = t'.contents key := by
  have := congrArg (Option.map fun s => (s.columns, s.hidden))
    (alike.find?_snapshot fun s => decide (s.key = key))
  rwa [Option.map_map, Option.map_map] at this

/-- Columns of bytes, all of them ascending. -/
def bytesAscending : Schema := fun _ => (.binary, false)

/-- Four rows that are put in order, and a category that is collapsed. -/
def straight : Table :=
  (empty {} .bytewise).run [.put ⟨1, 1⟩ [.binary [1]] false,
    .put ⟨1, 2⟩ [.binary [1], .binary [2]] false, .put ⟨1, 3⟩ [.binary [2]] false,
    .put ⟨1, 4⟩ [.binary [2], .binary [1]] false, .collapse ⟨1, 1⟩]

/-- The same rows put the other way round under other settings, after a table that was cleared; one
row is brought to its place later and one is deleted in between. -/
def roundabout : Table :=
  (empty { firstMark := 9, collectTally := false } .bytewise).run
    [.put ⟨1, 3⟩ [.binary [7]] true, .clear, .put ⟨1, 4⟩ [.binary [2], .binary [1]] false,
      .put ⟨1, 3⟩ [.binary [2]] false, .put ⟨1, 2⟩ [.binary [1], .binary [2]] true,
      .put ⟨1, 5⟩ [.binary [5]] false, .createBookmark, .erase ⟨1, 5⟩,
      .put ⟨1, 1⟩ [.binary [0]] false, .next, .put ⟨1, 1⟩ [.binary [1]] false]

def rootKey? (t : Table) : Option Key :=
  match t.tree with
  | .nil => none
  | .node _ c _ => some c.key

/-- The two trees have different roots, and no read tells the tables from each other. -/
theorem answersAlike_of_contents_roundabout :
    straight.ReachableUnder bytesAscending ∧ roundabout.ReachableUnder bytesAscending ∧
      (∀ key, straight.contents key = roundabout.contents key) ∧ straight.Untied ∧
      straight.rootKey? = some ⟨1, 2⟩ ∧ roundabout.rootKey? = some ⟨1, 3⟩ ∧
      straight.AnswersAlike roundabout := by
  have hone (b : Bytes) : SortKey.Follows [.binary b] bytesAscending :=
    Schema.follows_cons.2 ⟨rfl, Schema.follows_nil _⟩
  have htwo (b d : Bytes) : SortKey.Follows [.binary b, .binary d] bytesAscending :=
    Schema.follows_cons.2 ⟨rfl, Schema.follows_cons.2 ⟨rfl, Schema.follows_nil _⟩⟩
  have hstraight : straight.ReachableUnder bytesAscending := by
    refine ⟨{}, Collation.bytewise, _, rfl, Collation.isPreorder_bytewise, ?_, rfl⟩
    simp only [List.forall_mem_cons]
    exact ⟨hone _, htwo _ _, hone _, htwo _ _, trivial, by simp⟩
  have hroundabout : roundabout.ReachableUnder bytesAscending := by
    refine ⟨_, Collation.bytewise, _, rfl, Collation.isPreorder_bytewise, ?_, rfl⟩
    simp only [List.forall_mem_cons]
    exact ⟨hone _, trivial, htwo _ _, hone _, htwo _ _, hone _, trivial, trivial, hone _, trivial,
      hone _, by simp⟩
  have alike : SameSnapshots straight.entries roundabout.entries := by
    rw [SameSnapshots]
    cbv
  have same := contents_eq alike
  have hrows : straight.entries = [⟨⟨⟨1, 1⟩, [.binary [1]], 0⟩, false⟩,
      ⟨⟨⟨1, 2⟩, [.binary [1], .binary [2]], 1⟩, true⟩, ⟨⟨⟨1, 3⟩, [.binary [2]], 2⟩, false⟩,
      ⟨⟨⟨1, 4⟩, [.binary [2], .binary [1]], 3⟩, false⟩] := by
    cbv
  have untied : straight.Untied := by
    have hc : straight.collation = Collation.bytewise := by cbv
    rw [Untied, hrows, compare, hc]
    decide
  exact ⟨hstraight, hroundabout, same, untied, by cbv, by cbv,
    answersAlike_of_contents hstraight hroundabout (by cbv) same untied⟩

end Table

end LiveTable
