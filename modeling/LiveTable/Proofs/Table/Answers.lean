import LiveTable.Proofs.Table.Listing
import LiveTable.Proofs.Table.Ordered
import LiveTable.Proofs.Table.Seek

/-!
# What reads answer

Every call that only reads is answered from the list of rows, whatever the shape of the tree: a
page by the visible rows from a rank on (`Sound.page_fst`), a rank and the nearest visible row by
the rows before a row, a family by those after it, and a search in a table in order by the rows that
do not come before the probe (`Ordered.reach_bound`).
-/

namespace LiveTable.Table

variable {t : Table} {σ : Schema} {xs ys : List Entry} {e : Entry} {key : Key}

/-- The rank of a key: how many visible rows there are before its row. -/
def rank (t : Table) (key : Key) : Except Fault Nat := (t.goTo key).map (·.currentRank)

theorem Sound.lookup_of_not (h : t.Sound) (hk : ¬ HasKey t.entries key) :
    t.lookup key = .error (.notFound key) := lookup_of_none (h.focus?_eq_none_iff.2 hk)

/-! ## Ranks -/

theorem Sound.rank_split (h : t.Sound) (he : t.entries = xs ++ e :: ys) :
    t.rank e.key = .ok (visibleCount xs) := by
  obtain ⟨f, hf, hs⟩ := h.focus? he
  rw [rank, goTo_of_some hf, hs.key_eq, ← h.rankOf_row he]
  rfl

theorem Sound.rank_of_not (h : t.Sound) (hk : ¬ HasKey t.entries key) :
    t.rank key = .error (.notFound key) := by
  rw [rank, goTo_of_none (h.focus?_eq_none_iff.2 hk)]
  rfl

/-! ## Pages -/

theorem length_filter_isVisible (rows : List Entry) :
    (rows.filter (·.isVisible)).length = visibleCount rows := List.countP_eq_length_filter.symm

theorem Sound.ahead_select (h : t.Sound) (rank : Nat) :
    ((t.select rank).ahead t.entries).filter (·.isVisible) =
      (t.entries.filter (·.isVisible)).drop rank := by
  rcases Nat.lt_or_ge rank t.visible with hr | hr
  · obtain ⟨xs, e, ys, he, hp, -, hrank⟩ := h.select_lt hr
    rw [hp, he, Position.ahead_row (he ▸ h.distinct), List.filter_append,
      List.drop_left' ((length_filter_isVisible xs).trans hrank)]
  · rw [h.select_ge hr, List.drop_of_length_le (by rwa [length_filter_isVisible, ← h.visible_eq])]
    rfl

theorem Sound.ahead_target (h : t.Sound) (start : Nat) :
    ((if t.visible = 0 then Position.beforeFirst else t.select (t.target 0 start).toNat).ahead
        t.entries).filter (·.isVisible) =
      (t.entries.filter (·.isVisible)).drop start := by
  have hlength := length_filter_isVisible t.entries
  rw [← h.visible_eq] at hlength
  split
  · rename_i hv
    rw [Position.ahead, List.eq_nil_of_length_eq_zero (hlength.trans hv), List.drop_nil]
  · rw [h.ahead_select]
    rcases Nat.le_total start t.visible with hle | hle
    · rw [show (t.target 0 start).toNat = start by unfold target; omega]
    · rw [List.drop_of_length_le (by unfold target; omega),
        List.drop_of_length_le (hlength ▸ hle)]

theorem Sound.page_fst (h : t.Sound) (start count : Nat) :
    (t.page start count).1 =
      (((t.entries.filter (·.isVisible)).drop start).take count).map (·.key) := by
  have hseek := seek_of_ok (show t.origin .start = .ok ⟨0, false⟩ from rfl) start
  rw [page, hseek, ← h.ahead_target]
  refine congrArg (List.map _) (Sound.passage_slice (Sound.note (h.moveTo ?_) _) { count := count })
  split
  · trivial
  · exact h.select_within _

/-! ## Neighbours -/

theorem Sound.visibleBefore_split (h : t.Sound) (he : t.entries = xs ++ e :: ys) :
    t.visibleBefore e.key = .ok ((xs.reverse.find? (·.isVisible)).map (·.key)) := by
  obtain ⟨f, hf, hs⟩ := h.focus? he
  have hbefore : f.onward .left = xs.reverse := by
    rw [← hs.before, Focus.before, List.reverse_reverse]
  have hstop := head?_reach .left (span .left (·.hidden) (f.step .left)).2
  rw [span_stop, reach_step, hbefore] at hstop
  have hfind : xs.reverse.find? (·.isVisible) =
      (span .left (·.hidden) (f.step .left)).2.map (·.entry) := by
    rw [← hstop, List.find?_eq_head?_dropWhile_not]
    simp [Entry.isVisible]
  simp only [visibleBefore, lookup_of_some hf, hfind, Option.map_map]
  rfl

theorem Sound.visibleBefore_of_not (h : t.Sound) (hk : ¬ HasKey t.entries key) :
    t.visibleBefore key = .error (.notFound key) := by
  simp only [visibleBefore, h.lookup_of_not hk]
  rfl

theorem Sound.family_of_not (h : t.Sound) (hk : ¬ HasKey t.entries key) :
    t.family key = .error (.notFound key) := by
  simp only [family, h.lookup_of_not hk]
  rfl

/-! ## Searches -/

/-- The rows that do not come before a probe are the last ones. -/
theorem Ordered.bound_mono (h : t.Ordered σ) (probe : SortKey) : t.entries.Pairwise fun a b =>
    (!(t.compare a.columns probe).isLT) = true → (!(t.compare b.columns probe).isLT) = true := by
  have := h.transCmp
  apply h.sorted.imp_of_mem
  intro a b ha hb hab hge
  have hle := Ordering.isLE_iff_ne_gt.2 hab.ne_gt
  rw [Bool.not_eq_true', ← Bool.not_eq_true, Ordering.isLT_iff_eq_lt] at hge ⊢
  rw [h.compare_eq (h.follows a ha)] at hge hle
  rw [h.compare_eq (h.follows b hb)]
  exact fun hlt => hge (Std.TransCmp.lt_of_isLE_of_lt hle hlt)

theorem Ordered.reach_bound (h : t.Ordered σ) (probe : SortKey) :
    reach .right (t.bound probe) =
      t.entries.filter fun e => !(t.compare e.columns probe).isLT := by
  rw [bound, reach_ascend, (Tree.rowsAbove_gap (h.bound_mono probe) []).2]
  exact List.append_nil _

theorem find?_eq (t : Table) (probe : SortKey) :
    t.find? probe = ((reach .right (t.bound probe)).head?.filter fun e =>
      !(t.compare probe e.columns).isLT).map (·.key) := by
  rw [find?, head?_reach, Option.filter_map]
  rw [Option.map_map]
  rfl

end LiveTable.Table
