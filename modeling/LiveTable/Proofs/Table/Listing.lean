import LiveTable.Proofs.Table.Course
import LiveTable.Proofs.Table.Reachable

/-!
# Listing all rows

`rewind` seeks the first visible row and steps back from there; as no row has more rows before it
than there are in the table, it comes to rest before the first row, hidden rows included
(`Sound.cursor_rewind`). What is read from there on are all rows that are asked for
(`Sound.allRows_fst`).
-/

namespace LiveTable.Table

variable {t : Table}

/-! ## Stepping back -/

theorem sameContents_prev (t : Table) : t.SameContents t.prev := ⟨rfl, rfl, rfl, rfl, rfl⟩

theorem SameContents.trans {t' t'' : Table} (h : t.SameContents t') (h' : t'.SameContents t'') :
    t.SameContents t'' :=
  ⟨h'.settings.trans h.settings, h'.collation.trans h.collation, h'.tree.trans h.tree,
    h'.store.trans h.store, h'.arrivals.trans h.arrivals⟩

theorem Sound.prev (h : t.Sound) : t.prev.Sound := h.moveTo (h.before_within h.cursor)

theorem sameContents_stepBack (steps : Nat) (t : Table) : t.SameContents (stepBack steps t) := by
  induction steps generalizing t with
  | zero => exact .refl t
  | succ n ih =>
    rw [stepBack]
    split
    · exact .refl t
    · exact t.sameContents_prev.trans (ih t.prev)

theorem Sound.stepBack (h : t.Sound) (steps : Nat) : (stepBack steps t).Sound := by
  induction steps generalizing t with
  | zero => exact h
  | succ n ih =>
    rw [Table.stepBack]
    split
    · exact h
    · exact ih h.prev

theorem stepBack_of_beforeFirst (hc : t.cursor = .beforeFirst) (steps : Nat) :
    Table.stepBack steps t = t := by
  cases steps with
  | zero => rfl
  | succ n => rw [Table.stepBack, if_pos hc]

/-- As many steps as there are rows before the cursor and one more lead before the first row. -/
theorem Sound.cursor_stepBack (h : t.Sound) {steps : Nat} {xs ys : List Entry} {e : Entry}
    (he : t.entries = xs ++ e :: ys) (hc : t.cursor = .row e.key) (hn : xs.length < steps) :
    (Table.stepBack steps t).cursor = .beforeFirst := by
  induction steps generalizing t xs e ys with
  | zero => omega
  | succ n ih =>
    have hp : t.prev.cursor = .first xs.reverse .beforeFirst := by
      rw [Table.prev, hc, h.before_row he]
    rw [Table.stepBack, if_neg (by rw [hc]; simp)]
    rcases List.eq_nil_or_concat xs with rfl | ⟨xs', d, rfl⟩
    · rwa [stepBack_of_beforeFirst hp]
    · rw [List.concat_eq_append] at he hn hp
      rw [List.reverse_append] at hp
      have he' : t.prev.entries = xs' ++ d :: e :: ys := by
        rw [t.sameContents_prev.entries, he, List.append_assoc]
        rfl
      simp only [List.length_append, List.length_cons, List.length_nil] at hn
      exact ih h.prev he' hp (by omega)

/-! ## Rewinding -/

def atStart (t : Table) : Table :=
  { t with cursor := if t.visible = 0 then .beforeFirst else t.select 0 }.note .sought

theorem seek_start (t : Table) : t.seek .start 0 = .ok (⟨0, false⟩, t.atStart) := by
  have htarget : min ((0 : Nat) + 0 : Int).toNat t.visible = 0 := Nat.zero_min _
  simp only [seek, origin]
  show Except.ok _ = _
  rw [htarget]
  rfl

theorem perform_seek_start (t : Table) : (t.perform (.seek .start 0)).2 = t.atStart := by
  rw [perform_of_ok (by rw [answer, seek_start]; rfl)]

theorem rewind_eq (t : Table) : t.rewind = Table.stepBack t.atStart.size t.atStart := by
  rw [rewind, seek_start]

theorem sameContents_atStart (t : Table) : t.SameContents t.atStart := ⟨rfl, rfl, rfl, rfl, rfl⟩

theorem Sound.atStart (h : t.Sound) : t.atStart.Sound := by
  refine (h.moveTo ?_).note _
  split
  · trivial
  · exact h.select_within 0

theorem sameContents_rewind (t : Table) : t.SameContents t.rewind := by
  rw [rewind_eq]
  exact t.sameContents_atStart.trans (sameContents_stepBack ..)

theorem Sound.rewind (h : t.Sound) : t.rewind.Sound := by
  rw [rewind_eq]
  exact h.atStart.stepBack _

theorem Sound.cursor_rewind (h : t.Sound) : t.rewind.cursor = .beforeFirst := by
  rw [rewind_eq]
  by_cases hv : t.visible = 0
  · have hc : t.atStart.cursor = .beforeFirst := if_pos hv
    rw [stepBack_of_beforeFirst hc, hc]
  · obtain ⟨xs, e, ys, he, hs, -, -⟩ := h.select_lt (Nat.pos_of_ne_zero hv)
    have hc : t.atStart.cursor = .row e.key := (if_neg hv).trans hs
    have he' : t.atStart.entries = xs ++ e :: ys := t.sameContents_atStart.entries.trans he
    refine h.atStart.cursor_stepBack he' hc ?_
    rw [h.atStart.size_eq, he', List.length_append, List.length_cons]
    omega

/-! ## Reading all rows -/

/-- From before the first row on a read lists all rows that are asked for, if its bound allows for
all there are. -/
theorem Sound.read_rewind_fst (h : t.Sound) {most : Nat} (hm : t.size ≤ most) (hidden : Bool) :
    (t.rewind.read { count := most, hidden := hidden }).1 =
      (t.entries.filter fun e => hidden || e.isVisible).map (·.key) := by
  show ((t.rewind.passage { count := most, hidden := hidden }).1).map (·.key) = _
  have hcourse : t.rewind.course { count := most, hidden := hidden } = t.entries := by
    show t.rewind.cursor.ahead t.rewind.entries = _
    rw [h.cursor_rewind, Position.ahead, t.sameContents_rewind.entries]
  rw [h.rewind.passage_slice, slice, hcourse, List.take_of_length_le]
  · rfl
  · exact (List.length_filter_le ..).trans (h.size_eq ▸ hm)

theorem Sound.allRows_fst (h : t.Sound) (hidden : Bool) :
    (t.allRows hidden).1 = (t.entries.filter fun e => hidden || e.isVisible).map (·.key) :=
  h.read_rewind_fst (congrArg Store.size t.sameContents_rewind.store).ge hidden

end LiveTable.Table
