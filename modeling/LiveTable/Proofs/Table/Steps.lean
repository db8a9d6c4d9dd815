import LiveTable.Proofs.Table.Course
import LiveTable.Proofs.Table.Seek

/-!
# Steps along the rows

The positions of a table stand in one line: before the first row, on each of the rows in order,
hidden or not, and past the end (`Position.route`). A step forward goes to the next position of this
line and a step back to the one before, and at either end a step stays where it is. There is one
exception: a step back from past the end passes over the hidden rows behind it to the last visible
row. Everywhere else steps back undo steps forward (`stepsInOrder_of_reachable`).
-/

namespace LiveTable

namespace Position

def route (rows : List Entry) : List Position :=
  .beforeFirst :: (rows.map (.row ·.key) ++ [.pastEnd])

/-- On the last visible row, or before the first row if none is visible. -/
def lastVisible (rows : List Entry) : Position :=
  .first (rows.reverse.dropWhile (·.hidden)) .beforeFirst

variable {rows xs ys : List Entry} {e : Entry} {p : Position} {i : Nat}

theorem length_route (rows : List Entry) : (route rows).length = rows.length + 2 := by
  simp [route]

theorem getElem?_route_middle (xs : List Entry) (e : Entry) (ys : List Entry) :
    (route (xs ++ e :: ys))[xs.length + 1]? = some (.row e.key) := by
  rw [route, List.getElem?_cons_succ, List.map_append, List.append_assoc,
    List.getElem?_append_right (by simp)]
  simp

theorem getElem?_route_end (rows : List Entry) :
    (route rows)[rows.length + 1]? = some .pastEnd := by
  rw [route, List.getElem?_cons_succ, List.getElem?_append_right (by simp)]
  simp

/-- A position on the line is before the first row, on the row that its number says, or past the
end. -/
theorem route_cases (hp : (route rows)[i]? = some p) :
    (i = 0 ∧ p = .beforeFirst) ∨
    (∃ xs e ys, rows = xs ++ e :: ys ∧ i = xs.length + 1 ∧ p = .row e.key) ∨
    (i = rows.length + 1 ∧ p = .pastEnd) := by
  have hi : i < rows.length + 2 := length_route rows ▸ (List.getElem?_eq_some_iff.1 hp).1
  rcases i with _ | i
  · exact .inl ⟨rfl, (Option.some.inj hp).symm⟩
  rcases Nat.lt_or_ge i rows.length with hlt | hge
  · have hrows : rows = rows.take i ++ rows[i] :: rows.drop (i + 1) := by simp
    have hlen : i + 1 = (rows.take i).length + 1 := by simp [Nat.le_of_lt hlt]
    refine .inr (.inl ⟨_, _, _, hrows, hlen, ?_⟩)
    rw [hrows, hlen, getElem?_route_middle] at hp
    exact (Option.some.inj hp).symm
  · have hlast : i = rows.length := by omega
    subst hlast
    rw [getElem?_route_end] at hp
    exact .inr (.inr ⟨rfl, (Option.some.inj hp).symm⟩)

theorem exists_getElem?_route (hp : p.Within rows) : ∃ i : Nat, (route rows)[i]? = some p := by
  cases p with
  | beforeFirst => exact ⟨0, rfl⟩
  | row key =>
    obtain ⟨xs, e, ys, rfl, rfl⟩ := HasKey.split hp
    exact ⟨_, getElem?_route_middle xs e ys⟩
  | pastEnd => exact ⟨_, getElem?_route_end rows⟩

theorem exists_route_of_le (hi : i ≤ rows.length + 1) : ∃ p, (route rows)[i]? = some p := by
  have hlt : i < (route rows).length := by
    rw [length_route]
    omega
  exact ⟨_, List.getElem?_eq_getElem hlt⟩

theorem getD_route_succ (rows : List Entry) (i : Nat) :
    (route rows)[i + 1]?.getD .pastEnd = .first (rows.drop i) .pastEnd := by
  rw [route, List.getElem?_cons_succ]
  induction rows generalizing i with
  | nil => cases i <;> rfl
  | cons e rest ih =>
    cases i with
    | zero => rfl
    | succ i => exact ih i

/-- The rows that have been passed lead back along it. -/
theorem getD_route (hi : i ≤ rows.length) :
    (route rows)[i]?.getD .beforeFirst = .first (rows.take i).reverse .beforeFirst := by
  cases i with
  | zero => rfl
  | succ i =>
    have he : rows[i]? = some rows[i] := List.getElem?_eq_getElem hi
    rw [route, List.getElem?_cons_succ, List.getElem?_append_left (by simpa using hi),
      List.getElem?_map, he, List.take_add_one, he, List.reverse_append]
    rfl

theorem lastVisible_concat_iff (hd : Distinct (xs ++ [e])) :
    lastVisible (xs ++ [e]) = .row e.key ↔ e.hidden = false := by
  have hreverse : (xs ++ [e]).reverse = e :: xs.reverse := by simp
  rw [lastVisible, hreverse]
  constructor
  · intro hlast
    by_contra hvisible
    rw [List.dropWhile_cons_of_pos (by simpa using hvisible)] at hlast
    -- the row would be the last visible one of those before it
    have hwithin : (first (xs.reverse.dropWhile (·.hidden)) .beforeFirst).Within xs :=
      within_first (fun a ha => List.mem_reverse.1 (List.dropWhile_subset _ ha)) trivial
    rw [hlast] at hwithin
    rw [distinct_middle, List.append_nil] at hd
    exact hd.1 hwithin
  · intro hvisible
    rw [List.dropWhile_cons_of_neg (by simp [hvisible])]
    rfl

end Position

namespace Table

open Position

variable {t : Table} {p : Position} {i : Nat}

/-! ## One step -/

theorem Sound.after_route (h : t.Sound) (hp : (route t.entries)[i]? = some p) :
    t.after p = (route t.entries)[i + 1]?.getD .pastEnd := by
  rw [getD_route_succ]
  rcases route_cases hp with ⟨rfl, rfl⟩ | ⟨xs, e, ys, he, rfl, rfl⟩ | ⟨rfl, rfl⟩
  · rw [after_beforeFirst, List.drop_zero]
  · rw [h.after_row he, he]
    simp
  · rw [List.drop_of_length_le (Nat.le_succ _)]
    rfl

theorem Sound.before_route (h : t.Sound) (hp : (route t.entries)[i]? = some p)
    (hi : i ≤ t.entries.length) : t.before p = (route t.entries)[i - 1]?.getD .beforeFirst := by
  rcases route_cases hp with ⟨rfl, rfl⟩ | ⟨xs, e, ys, he, rfl, rfl⟩ | ⟨rfl, rfl⟩
  · rfl
  · rw [h.before_row he, getD_route (by omega), he]
    simp
  · exact absurd hi (Nat.not_succ_le_self _)

/-- The number of a position goes up by one with a step forward, as far as the line goes. -/
theorem Sound.after_getD_route (h : t.Sound) (i : Nat) :
    t.after ((route t.entries)[i]?.getD .pastEnd) = (route t.entries)[i + 1]?.getD .pastEnd := by
  cases hp : (route t.entries)[i]? with
  | some p => exact h.after_route hp
  | none =>
    rw [List.getElem?_eq_none (Nat.le_succ_of_le (List.getElem?_eq_none_iff.1 hp))]
    rfl

theorem Sound.before_getD_route (h : t.Sound) (hi : i ≤ t.entries.length) :
    t.before ((route t.entries)[i]?.getD .beforeFirst) =
      (route t.entries)[i - 1]?.getD .beforeFirst := by
  obtain ⟨p, hp⟩ := exists_route_of_le (Nat.le_succ_of_le hi)
  rw [hp]
  exact h.before_route hp hi

/-! ## Many steps -/

theorem Sound.run_next (h : t.Sound) (hp : (route t.entries)[i]? = some t.cursor) (n : Nat) :
    t.run (List.replicate n .next) =
      { t with cursor := (route t.entries)[i + n]?.getD .pastEnd } := by
  induction n with
  | zero =>
    rw [Nat.add_zero, hp]
    rfl
  | succ n ih =>
    rw [List.replicate_succ', run_append, ih, Nat.add_succ, ← h.after_getD_route]
    rfl

theorem Sound.run_prev (h : t.Sound) (hp : (route t.entries)[i]? = some t.cursor)
    (hi : i ≤ t.entries.length) (n : Nat) :
    t.run (List.replicate n .prev) =
      { t with cursor := (route t.entries)[i - n]?.getD .beforeFirst } := by
  induction n with
  | zero =>
    rw [Nat.sub_zero, hp]
    rfl
  | succ n ih =>
    rw [List.replicate_succ', run_append, ih, ← Nat.sub_sub, ← h.before_getD_route (by omega)]
    rfl

/-! ## There and back -/

theorem Sound.before_after (h : t.Sound) (hp : (route t.entries)[i]? = some p)
    (hi : i < t.entries.length) : t.before (t.after p) = p := by
  obtain ⟨q, hq⟩ := exists_route_of_le (Nat.add_le_add_right (Nat.le_of_lt hi) 1)
  rw [h.after_route hp, hq]
  show t.before q = p
  rw [h.before_route hq hi, Nat.add_sub_cancel, hp]
  rfl

theorem Sound.after_before (h : t.Sound) (hp : (route t.entries)[i]? = some p) (hpos : 0 < i)
    (hi : i ≤ t.entries.length) : t.after (t.before p) = p := by
  obtain ⟨q, hq⟩ := exists_route_of_le ((Nat.sub_le i 1).trans (Nat.le_succ_of_le hi))
  rw [h.before_route hp hi, hq]
  show t.after q = p
  rw [h.after_route hq, Nat.sub_add_cancel hpos, hp]
  rfl

theorem seek_last (t : Table) :
    t.perform (.seek .finish (-1)) =
      (.ok (.travelled ⟨t.target t.visible (-1) - t.visible, false⟩),
        { t with cursor := t.before .pastEnd }.note .sought) := by
  have htarget : (t.target t.visible (-1)).toNat = t.visible - 1 := by
    unfold target
    omega
  have horigin : t.origin .finish = .ok ⟨t.visible, false⟩ := rfl
  have hseek := seek_of_ok horigin (-1)
  rw [htarget] at hseek
  simp only [perform, answer, hseek]
  rfl

/-- What the steps of a table do whose cursor is at position `i` of its line: before the first row
where `i` is zero, on the row of that number up to the number of rows, and past the end beyond. -/
structure StepsInOrder (t : Table) (i : Nat) : Prop where
  next : t.perform .next =
    (.ok .done, { t with cursor := (route t.entries)[i + 1]?.getD .pastEnd })
  prev : i ≤ t.entries.length → t.perform .prev =
    (.ok .done, { t with cursor := (route t.entries)[i - 1]?.getD .beforeFirst })
  prev_pastEnd : t.cursor = .pastEnd → t.perform .prev =
    (.ok .done, { t with cursor := lastVisible t.entries })
  run_next (n : Nat) : t.run (List.replicate n .next) =
    { t with cursor := (route t.entries)[i + n]?.getD .pastEnd }
  run_prev : i ≤ t.entries.length → ∀ n, t.run (List.replicate n .prev) =
    { t with cursor := (route t.entries)[i - n]?.getD .beforeFirst }
  /-- A step back undoes a step forward, as long as that does not lead past the end. -/
  next_prev : i < t.entries.length → t.run [.next, .prev] = t
  /-- From every row a step forward undoes a step back. -/
  prev_next : 0 < i → i ≤ t.entries.length → t.run [.prev, .next] = t
  /-- From the last row a step back undoes a step forward just if the row is visible. -/
  next_prev_last (xs : List Entry) (e : Entry) : t.entries = xs ++ [e] → i = t.entries.length →
    (t.run [.next, .prev] = t ↔ e.hidden = false)
  seek_last : (t.perform (.seek .finish (-1))).2.cursor = lastVisible t.entries

/-- A step forward goes to the next position and a step back undoes it, but from past the end a step
back goes to the last visible row. -/
theorem stepsInOrder_of_reachable (h : t.Reachable) :
    (∃ i : Nat, (route t.entries)[i]? = some t.cursor) ∧
      ∀ i : Nat, (route t.entries)[i]? = some t.cursor → t.StepsInOrder i := by
  have hs := h.sound
  have hlast : t.before .pastEnd = lastVisible t.entries := hs.before_pastEnd
  refine ⟨exists_getElem?_route hs.cursor, fun i hp => ?_⟩
  have there_and_back : t.run [.next, .prev] = { t with cursor := t.before (t.after t.cursor) } :=
    rfl
  have back_and_there : t.run [.prev, .next] = { t with cursor := t.after (t.before t.cursor) } :=
    rfl
  refine ⟨?_, fun hi => ?_, fun hend => ?_, hs.run_next hp, hs.run_prev hp, fun hi => ?_,
    fun hpos hi => ?_, fun xs e he hi => ?_, ?_⟩
  · rw [← hs.after_route hp]
    rfl
  · rw [← hs.before_route hp hi]
    rfl
  · rw [← hlast, ← hend]
    rfl
  · rw [there_and_back, hs.before_after hp hi]
  · rw [back_and_there, hs.after_before hp hpos hi]
  · -- the cursor is on the last row, so that the step forward leads past the end
    have hcursor : t.cursor = .row e.key := by
      have hlast := getElem?_route_middle xs e []
      rw [he, List.length_append, List.length_singleton] at hi
      rw [← he, ← hi, hp] at hlast
      exact Option.some.inj hlast
    have hafter : t.after t.cursor = .pastEnd := by
      rw [hcursor, hs.after_row he]
      rfl
    have hd : Distinct (xs ++ [e]) := he ▸ hs.distinct
    rw [there_and_back, hafter, hlast, he, ← lastVisible_concat_iff hd, ← hcursor]
    exact ⟨fun heq => congrArg Table.cursor heq, fun heq => by rw [heq]⟩
  · rw [t.seek_last, ← hlast]
    rfl

/-- Three rows, the last one hidden, and the cursor on it. -/
def endingHidden : Table :=
  (empty {} .bytewise).run [.put ⟨1, 1⟩ [Column.binary [1]] false,
    .put ⟨1, 2⟩ [Column.binary [2]] false, .put ⟨1, 3⟩ [Column.binary [3]] true, .goTo ⟨1, 3⟩]

/-- A step past the end and back leads to the row before the hidden one, two steps back to the first
row. -/
theorem stepsInOrder_on_hidden :
    endingHidden.Reachable ∧ (route endingHidden.entries)[3]? = some endingHidden.cursor ∧
      endingHidden.run [.next, .prev] ≠ endingHidden ∧
      (endingHidden.perform (.seek .finish (-1))).2.cursor = .row ⟨1, 2⟩ ∧
      endingHidden.run (List.replicate 2 .prev) =
        { endingHidden with cursor := .row ⟨1, 1⟩ } := by
  have hreachable : endingHidden.Reachable := ⟨{}, .bytewise, _, rfl, rfl⟩
  have hrows : endingHidden.entries = [⟨⟨⟨1, 1⟩, [Column.binary [1]], 0⟩, false⟩,
      ⟨⟨⟨1, 2⟩, [Column.binary [2]], 1⟩, false⟩, ⟨⟨⟨1, 3⟩, [Column.binary [3]], 2⟩, true⟩] := by cbv
  have hcursor : endingHidden.cursor = .row ⟨1, 3⟩ := by cbv
  have hroute : (route endingHidden.entries)[3]? = some endingHidden.cursor := by
    rw [hrows, hcursor]
    rfl
  have hsteps := (stepsInOrder_of_reachable hreachable).2 3 hroute
  refine ⟨hreachable, hroute, fun hback => ?_, ?_, ?_⟩
  · have hlength : 3 = endingHidden.entries.length := by
      rw [hrows]
      rfl
    cases (hsteps.next_prev_last [_, _] _ hrows hlength).1 hback
  · rw [hsteps.seek_last, hrows]
    rfl
  · rw [hsteps.run_prev (by rw [hrows]; decide) 2, hrows]
    rfl

end Table

end LiveTable
