import LiveTable.Proofs.Table.Answers
import LiveTable.Proofs.Table.Steps

/-!
# Rewinding and reading from the start

To rewind, the first visible row is sought and the cursor stepped back until it is before the first
row. Only the hidden rows at the start lie in between, so that the loop takes one step over each of
those and one more, and none if no row is visible, where the seek itself leads before the first row
(`stepsToStart`). From there all rows are read, each of them once, and a page is a part of the list of
the visible ones, wherever the cursor was before (`listsFromStart_of_reachable`).
-/

namespace LiveTable

open Position

variable {rows : List Entry} {i : Nat}

theorem Position.getD_route_eq_beforeFirst (hi : i ≤ rows.length + 1) :
    (route rows)[i]?.getD .beforeFirst = .beforeFirst ↔ i = 0 := by
  obtain ⟨p, hp⟩ := exists_route_of_le hi
  rw [hp, Option.getD_some]
  rcases route_cases hp with ⟨rfl, rfl⟩ | ⟨xs, e, ys, -, rfl, rfl⟩ | ⟨rfl, rfl⟩
  · simp
  · simp
  · simp

namespace Table

variable {t : Table}

/-! ## The loop -/

/-- How many steps back lead from where the seek ends to before the first row: one over each of the
hidden rows at the start and one more, or none if no row is visible. -/
def stepsToStart (t : Table) : Nat :=
  if t.visible = 0 then 0 else (t.entries.takeWhile (·.hidden)).length + 1

theorem takeWhile_hidden {xs ys : List Entry} {e : Entry} (hvisible : e.hidden = false)
    (hrank : visibleCount xs = 0) : (xs ++ e :: ys).takeWhile (·.hidden) = xs := by
  have hhidden : ∀ a ∈ xs, a.hidden = true := fun _ => hidden_of_visibleCount hrank
  rw [List.takeWhile_append_of_pos hhidden, List.takeWhile_cons_of_neg (by simp [hvisible]),
    List.append_nil]

theorem Sound.route_atStart (h : t.Sound) :
    (route t.entries)[t.stepsToStart]? = some t.atStart.cursor ∧
      t.stepsToStart ≤ t.entries.length := by
  rw [stepsToStart]
  by_cases hv : t.visible = 0
  · have hcursor : t.atStart.cursor = .beforeFirst := if_pos hv
    rw [if_pos hv, hcursor]
    exact ⟨rfl, Nat.zero_le _⟩
  · obtain ⟨xs, e, ys, he, hp, hvisible, hrank⟩ := h.select_lt (Nat.pos_of_ne_zero hv)
    have hcursor : t.atStart.cursor = .row e.key := (if_neg hv).trans hp
    rw [if_neg hv, he, takeWhile_hidden hvisible hrank, hcursor]
    refine ⟨getElem?_route_middle xs e ys, ?_⟩
    rw [List.length_append, List.length_cons]
    omega

/-- Each step back takes the cursor on by one position, from the first visible row on. -/
theorem Sound.run_seek_prev (h : t.Sound) (steps : Nat) :
    t.run (.seek .start 0 :: List.replicate steps .prev) =
      { t.atStart with
        cursor := (route t.entries)[t.stepsToStart - steps]?.getD .beforeFirst } := by
  obtain ⟨hp, hi⟩ := h.route_atStart
  rw [run_cons, perform_seek_start]
  exact h.atStart.run_prev hp hi steps

theorem stepBack_eq (steps : Nat) (t : Table) :
    stepBack steps t = { t with cursor := (stepBack steps t).cursor } := by
  induction steps generalizing t with
  | zero => rfl
  | succ n ih =>
    rw [stepBack]
    split
    · rfl
    · rw [ih t.prev]
      rfl

/-- To rewind is to seek the first rank and to put the cursor before the first row. -/
theorem Sound.rewind_eq (h : t.Sound) :
    t.rewind = { t with cursor := .beforeFirst }.note .sought := by
  have hcursor := h.cursor_rewind
  rw [Table.rewind_eq] at hcursor ⊢
  rw [stepBack_eq, hcursor]
  rfl

/-! ## Reading from the start -/

/-- What it is to rewind a table and to read it from the start. -/
structure ListsFromStart (t : Table) : Prop where
  steps_le : t.stepsToStart ≤ t.size
  /-- After this many steps back the cursor is before the first row, and after no fewer. -/
  loop_ends (steps : Nat) :
    (t.run (.seek .start 0 :: List.replicate steps .prev)).cursor = .beforeFirst ↔
      t.stepsToStart ≤ steps
  rewind : t.rewind = t.run (.seek .start 0 :: List.replicate t.stepsToStart .prev)
  rewind_still : t.rewind = { t with cursor := .beforeFirst }.note .sought
  all : (t.allRows true).1 = t.entries.map (·.key)
  once : (t.allRows true).1.Nodup
  live (key : Key) : key ∈ (t.allRows true).1 ↔ t.contains key = true
  visible : (t.allRows false).1 = (t.entries.filter (·.isVisible)).map (·.key)
  sublist : (t.allRows false).1.Sublist (t.allRows true).1
  /-- No bound on the number of rows matters that allows for all of them. -/
  read (hidden : Bool) (most : Nat) : t.size ≤ most →
    (t.rewind.read { count := most, hidden := hidden }).1 = (t.allRows hidden).1
  page (start count : Nat) :
    (t.page start count).1 = ((t.allRows false).1.drop start).take count

/-- Rewinding ends, and what is read from the start on is the whole table or a page of it. -/
theorem listsFromStart_of_reachable (h : t.Reachable) : t.ListsFromStart := by
  have hs := h.sound
  obtain ⟨-, hsteps⟩ := hs.route_atStart
  have hall : (t.allRows true).1 = t.entries.map (·.key) := by
    rw [hs.allRows_fst]
    simp
  have hvisible : (t.allRows false).1 = (t.entries.filter (·.isVisible)).map (·.key) := by
    rw [hs.allRows_fst]
    simp
  refine ⟨hs.size_eq ▸ hsteps, fun steps => ?_, ?_, hs.rewind_eq, hall, ?_, fun key => ?_,
    hvisible, ?_, fun hidden most hm => ?_, fun start count => ?_⟩
  · rw [hs.run_seek_prev]
    exact (getD_route_eq_beforeFirst (by omega)).trans Nat.sub_eq_zero_iff_le
  · rw [hs.rewind_eq, hs.run_seek_prev, Nat.sub_self]
    rfl
  · rw [hall]
    exact hs.distinct
  · rw [hall, hs.contains_iff, List.mem_map]
    rfl
  · rw [hall, hvisible]
    exact List.filter_sublist.map _
  · rw [hs.read_rewind_fst hm, hs.allRows_fst]
  · rw [hs.page_fst, hvisible, List.map_take, List.map_drop]

/-- Five rows with two hidden ones at the start and another one between the visible ones. The cursor
is past the end. -/
def startingHidden : Table :=
  (empty {} .bytewise).run [.put ⟨1, 3⟩ [Column.binary [3]] false,
    .put ⟨1, 1⟩ [Column.binary [1]] true, .put ⟨1, 2⟩ [Column.binary [2]] true,
    .put ⟨1, 5⟩ [Column.binary [5]] false, .put ⟨1, 4⟩ [Column.binary [4]] true,
    .lowerBound [Column.binary [6]]]

/-- Three steps lead over the hidden rows, two do not, and the second page holds the visible row
after the hidden one. -/
theorem listsFromStart_startingHidden :
    startingHidden.Reachable ∧ startingHidden.cursor = .pastEnd ∧
      (startingHidden.run (.seek .start 0 :: List.replicate 2 .prev)).cursor ≠ .beforeFirst ∧
      startingHidden.rewind = startingHidden.run (.seek .start 0 :: List.replicate 3 .prev) ∧
      (startingHidden.allRows true).1 = [⟨1, 1⟩, ⟨1, 2⟩, ⟨1, 3⟩, ⟨1, 4⟩, ⟨1, 5⟩] ∧
      (startingHidden.page 1 4).1 = [⟨1, 5⟩] := by
  have hreachable : startingHidden.Reachable := ⟨{}, .bytewise, _, rfl, rfl⟩
  have hlists := listsFromStart_of_reachable hreachable
  have hsteps : startingHidden.stepsToStart = 3 := by cbv
  refine ⟨hreachable, by cbv, ?_, ?_, ?_, ?_⟩
  · rw [ne_eq, hlists.loop_ends, hsteps]
    decide
  · rw [hlists.rewind, hsteps]
  · rw [hlists.all]
    cbv
  · rw [hlists.page, hlists.visible]
    cbv

end Table

end LiveTable
