import LiveTable.Proofs.Table.Cursor
import Mathlib.Data.List.Nodup
import Mathlib.Data.List.TakeWhile

/-!
# The rows that a read goes over

A read goes over the rows ahead of the cursor, or back over those behind it, in the order in which
it comes to them (`course`), and lists the first of those that it wants (`slice`). Its bound, the
number of rows that can be listed at all, never cuts the list short (`Sound.passage_slice`).
-/

namespace LiveTable

/-! ## What lies behind -/

/-- The rows at and before a position, the nearest first. Past the end they begin with the last
visible row. -/
def Position.back (rows : List Entry) : Position → List Entry
  | .beforeFirst => []
  | .row key => rows.reverse.dropWhile (·.key ≠ key)
  | .pastEnd => rows.reverse.dropWhile (·.hidden)

theorem Distinct.reverse {rows : List Entry} (h : Distinct rows) : Distinct rows.reverse := by
  rw [Distinct, List.map_reverse]
  exact List.nodup_reverse.2 h

namespace Position

theorem back_row {xs ys : List Entry} {e : Entry} (hd : Distinct (xs ++ e :: ys)) :
    (row e.key).back (xs ++ e :: ys) = e :: xs.reverse := by
  have hr : (xs ++ e :: ys).reverse = ys.reverse ++ e :: xs.reverse := by simp
  have hd' := hd.reverse
  rw [hr] at hd'
  rw [back, hr]
  exact hd'.span_ne.2

theorem back_pastEnd {xs ys : List Entry} {e : Entry} (he : e.hidden = false)
    (hy : visibleCount ys = 0) : pastEnd.back (xs ++ e :: ys) = e :: xs.reverse := by
  have hhidden : ∀ a ∈ ys.reverse, a.hidden = true := fun a ha =>
    hidden_of_visibleCount hy (List.mem_reverse.1 ha)
  rw [back, List.reverse_append, List.reverse_cons, List.append_assoc,
    List.dropWhile_append_of_pos hhidden]
  exact List.dropWhile_cons_of_neg (by simp [he])

theorem back_pastEnd_of_none_visible {rows : List Entry} (hv : visibleCount rows = 0) :
    pastEnd.back rows = [] :=
  List.dropWhile_eq_nil_iff.2 fun _ ha => hidden_of_visibleCount hv (List.mem_reverse.1 ha)

theorem back_suffix (rows : List Entry) (p : Position) :
    ∃ xs, rows.reverse = xs ++ p.back rows := by
  cases p with
  | beforeFirst => exact ⟨rows.reverse, (List.append_nil _).symm⟩
  | row key => exact ⟨_, List.takeWhile_append_dropWhile.symm⟩
  | pastEnd => exact ⟨_, List.takeWhile_append_dropWhile.symm⟩

end Position

theorem Focus.Splits.reach_left {f : Focus} {t : Tree} {xs ys : List Entry} {e : Entry}
    (h : f.Splits t xs e ys) : reach .left (some f) = e :: xs.reverse := by
  rw [reach, h.entry, ← h.before, Focus.before, List.reverse_reverse]

namespace Table

variable {t : Table}

/-- The rows that a read goes over, in the order in which it comes to them. -/
def course (t : Table) (r : Reading) : List Entry :=
  if r.backward then t.cursor.back t.entries else t.cursor.ahead t.entries

/-- The first rows that a read wants of those that it goes over, as many as are asked for. -/
def slice (t : Table) (r : Reading) : List Entry := ((t.course r).filter (wants r)).take r.count

/-! ## Where a read goes -/

theorem Sound.before_pastEnd (h : t.Sound) :
    t.before .pastEnd = .first (Position.pastEnd.back t.entries) .beforeFirst := by
  rw [before]
  by_cases hv : t.visible = 0
  · rw [if_pos hv, Position.back_pastEnd_of_none_visible (h.visible_eq ▸ hv)]
    rfl
  · obtain ⟨xs, e, ys, he, hp, hvisible, hrank⟩ := h.select_lt (Nat.sub_one_lt hv)
    have hlast : visibleCount ys = 0 := by
      have hcount := h.visible_eq
      rw [he, visibleCount_append, visibleCount_cons, Entry.weight, hvisible] at hcount
      simp only [Bool.false_eq_true, if_false] at hcount
      omega
    rw [if_neg hv, hp, he, Position.back_pastEnd hvisible hlast]
    rfl

theorem Sound.reach_readStart_left (h : t.Sound) :
    reach .left (t.at? (t.readStart true)) = t.cursor.back t.entries := by
  have at_row {xs ys : List Entry} {e : Entry} (he : t.entries = xs ++ e :: ys) :
      reach .left (t.at? (.row e.key)) = e :: xs.reverse := by
    obtain ⟨f, hf, hs⟩ := h.focus? he
    rw [at?, hf, hs.reach_left]
  cases hc : t.cursor with
  | beforeFirst => simp [readStart, hc, at?, reach, Position.back]
  | row key =>
    have hw := h.cursor
    rw [hc] at hw
    obtain ⟨xs, e, ys, he, rfl⟩ := HasKey.split hw
    simp only [readStart, hc]
    rw [at_row he, he, Position.back_row (he ▸ h.distinct)]
  | pastEnd =>
    simp only [readStart, hc]
    rw [h.before_pastEnd]
    obtain ⟨skipped, hs⟩ := Position.back_suffix t.entries .pastEnd
    cases hb : Position.pastEnd.back t.entries with
    | nil => rfl
    | cons e rest =>
      rw [hb] at hs
      have he : t.entries = rest.reverse ++ e :: skipped.reverse := by
        rw [← List.reverse_reverse t.entries, hs]
        simp
      rw [Position.first, at_row he, List.reverse_reverse]

theorem Sound.reach_course (h : t.Sound) (r : Reading) :
    reach (sideOf r) (t.at? (t.readStart r.backward)) = t.course r := by
  cases hb : r.backward with
  | false => simp only [sideOf, course, hb, Bool.false_eq_true, if_false, h.reach_readStart]
  | true => simp only [sideOf, course, hb, if_true, h.reach_readStart_left]

theorem course_suffix (t : Table) (r : Reading) :
    ∃ xs, (if r.backward then t.entries.reverse else t.entries) = xs ++ t.course r := by
  unfold course
  split
  · exact t.cursor.back_suffix t.entries
  · exact t.cursor.ahead_suffix t.entries

/-! ## What a read lists -/

theorem Sound.length_wanted_le (h : t.Sound) (hidden : Bool) :
    (t.entries.filter fun e => hidden || e.isVisible).length ≤
      if hidden then t.size else t.visible := by
  cases hidden with
  | true =>
    rw [if_pos rfl, h.size_eq]
    exact List.length_filter_le ..
  | false =>
    rw [if_neg (by simp), h.visible_eq, visibleCount, List.countP_eq_length_filter]
    exact Nat.le_of_eq (congrArg List.length (List.filter_congr fun e _ => by simp))

/-- No read comes to more rows that it wants than its bound allows. -/
theorem Sound.length_wanted_le_most (h : t.Sound) (r : Reading) :
    ((t.course r).filter (wants r)).length ≤ if r.hidden then t.size else t.visible := by
  have hall : (t.entries.filter (wants r)).length ≤ if r.hidden then t.size else t.visible :=
    h.length_wanted_le r.hidden
  have hside : ((if r.backward then t.entries.reverse else t.entries).filter (wants r)).length =
      (t.entries.filter (wants r)).length := by
    split
    · rw [List.filter_reverse, List.length_reverse]
    · rfl
  obtain ⟨xs, hx⟩ := t.course_suffix r
  rw [hx, List.filter_append, List.length_append] at hside
  omega

theorem Sound.passage_slice (h : t.Sound) (r : Reading) : (t.passage r).1 = t.slice r := by
  rw [passage, gather_rows, h.reach_course, most, ← List.take_take,
    List.take_of_length_le (h.length_wanted_le_most r), slice]

end Table

end LiveTable
