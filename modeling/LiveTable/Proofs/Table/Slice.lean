import LiveTable.Proofs.Table.Course
import LiveTable.Proofs.Table.Reachable
import Mathlib

/-!
# Reads as slices

A read lists the first rows that it wants on its course, as many as are asked for. One that goes on
leaves the cursor right after the last row that it listed, and at the end of the table if it found
fewer rows than it could have listed (`readsSlice_of_reachable`).
-/

namespace LiveTable

def Reading.finish (r : Reading) : Position := if r.backward then .beforeFirst else .pastEnd

namespace Table

variable {t : Table}

/-- A read answers with its slice and at most moves the cursor. If it goes on, it leaves the cursor
next to the last row of the slice, on the side it goes to, and at the end of the table if the slice
is shorter than it could have been. -/
structure ReadsSlice (t : Table) (r : Reading) : Prop where
  answer : (t.perform (.read r)).1 = .ok (.keys ((t.slice r).map (·.key)))
  bounded : (t.slice r).length ≤ t.most r
  stays : r.advance = false → (t.perform (.read r)).2 = t
  moves : (t.perform (.read r)).2 = { t with cursor := (t.perform (.read r)).2.cursor }
  full : r.advance = true → 1 ≤ t.most r → (t.slice r).length = t.most r →
    ∃ xs e ys, t.entries = xs ++ e :: ys ∧ (t.slice r).getLast? = some e ∧
      (t.perform (.read r)).2.cursor =
        if r.backward then .first xs.reverse .beforeFirst else .first ys .pastEnd
  short : r.advance = true → 1 ≤ t.most r → (t.slice r).length < t.most r →
    (t.perform (.read r)).2.cursor = r.finish

/-! ## Where a read ends -/

theorem Sound.readStart_ne_pastEnd (h : t.Sound) : t.readStart true ≠ .pastEnd := by
  cases hc : t.cursor with
  | beforeFirst => simp [readStart, hc]
  | row key => simp [readStart, hc]
  | pastEnd =>
    simp only [readStart, hc, before]
    split
    · simp
    · rename_i hv
      obtain ⟨xs, e, ys, -, hp, -⟩ := h.select_lt (Nat.sub_one_lt hv)
      simp [hp]

theorem Sound.readStart_ne_beforeFirst (h : t.Sound) {r : Reading} (hm : 1 ≤ t.most r) :
    t.readStart false ≠ .beforeFirst := by
  intro hs
  have he := readStart_eq_beforeFirst hs
  have hsize : t.size = 0 := by rw [h.size_eq, he, List.length_nil]
  have hvisible : t.visible = 0 := by rw [h.visible_eq, he]; rfl
  simp [most, hsize, hvisible] at hm

theorem Sound.readStop_eq (h : t.Sound) {r : Reading} (hm : 1 ≤ t.most r) :
    t.readStop r = .first (reach (sideOf r) (t.passage r).2) r.finish := by
  -- a read that starts on no row passes none
  have hnil (hat : t.at? (t.readStart r.backward) = none) :
      reach (sideOf r) (t.passage r).2 = [] := by
    obtain ⟨passed, hp, -⟩ := t.passage_split r
    rw [hat] at hp
    exact (List.append_eq_nil_iff.1 hp.symm).2
  unfold readStop
  cases hs : t.readStart r.backward with
  | row key =>
    simp only [Reading.finish]
    split
    · exact Position.orStart_eq (sideOf r) _
    · exact Position.orEnd_eq (sideOf r) _
  | beforeFirst =>
    rw [hnil (by rw [hs]; rfl)]
    cases hb : r.backward with
    | false => exact absurd (hb ▸ hs) (h.readStart_ne_beforeFirst hm)
    | true => simp [Reading.finish, hb, Position.first]
  | pastEnd =>
    rw [hnil (by rw [hs]; rfl)]
    cases hb : r.backward with
    | false => simp [Reading.finish, hb, Position.first]
    | true => exact absurd (hb ▸ hs) h.readStart_ne_pastEnd

/-- What a read has passed ends with the last row that it listed, unless it lists fewer rows than it
can and passes all there are. -/
theorem Sound.course_split (h : t.Sound) (r : Reading) :
    ∃ passed, t.course r = passed ++ reach (sideOf r) (t.passage r).2 ∧
      ((t.slice r).length = t.most r ∧ passed.getLast? = (t.slice r).getLast? ∨
        (t.slice r).length < t.most r ∧ reach (sideOf r) (t.passage r).2 = []) := by
  obtain ⟨passed, hp, -, hstop⟩ := t.passage_split r
  rw [h.reach_course] at hp
  rw [h.passage_slice] at hstop
  exact ⟨passed, hp, hstop.imp_right fun ⟨hn, hnone⟩ => ⟨hn, by rw [hnone]; rfl⟩⟩

theorem Sound.readStop_full (h : t.Sound) {r : Reading} (hm : 1 ≤ t.most r)
    (hl : (t.slice r).length = t.most r) :
    ∃ xs e ys, t.entries = xs ++ e :: ys ∧ (t.slice r).getLast? = some e ∧
      t.readStop r = if r.backward then .first xs.reverse .beforeFirst else .first ys .pastEnd := by
  obtain ⟨skipped, hskipped⟩ := t.course_suffix r
  obtain ⟨passed, hp, ⟨-, hlast⟩ | ⟨hn, -⟩⟩ := h.course_split r
  · have hne : t.slice r ≠ [] := List.ne_nil_of_length_pos (hl ▸ hm)
    have hlisted := List.getLast?_eq_some_getLast hne
    rw [hlisted] at hlast
    obtain ⟨passed, rfl⟩ := List.getLast?_eq_some_iff.1 hlast
    rw [hp, List.append_assoc, List.singleton_append, ← List.append_assoc] at hskipped
    rw [h.readStop_eq hm, Reading.finish, hlisted]
    -- on the way back what is left of the course lies before the last row, in reverse
    cases hb : r.backward with
    | false =>
      simp only [hb, Bool.false_eq_true, if_false] at hskipped ⊢
      exact ⟨_, _, _, hskipped, rfl, rfl⟩
    | true =>
      simp only [hb, if_true, List.reverse_eq_iff] at hskipped ⊢
      rw [List.reverse_append, List.reverse_cons, List.append_assoc] at hskipped
      exact ⟨_, _, _, hskipped, rfl, congrArg (Position.first · _) (List.reverse_reverse _).symm⟩
  · exact absurd hl (Nat.ne_of_lt hn)

theorem Sound.readStop_short (h : t.Sound) {r : Reading} (hm : 1 ≤ t.most r)
    (hl : (t.slice r).length < t.most r) : t.readStop r = r.finish := by
  obtain ⟨passed, -, hstop⟩ := h.course_split r
  have hnil := (hstop.resolve_left fun ⟨hn, _⟩ => Nat.ne_of_lt hl hn).2
  rw [h.readStop_eq hm, hnil]
  rfl

/-! ## Reads -/

theorem Sound.perform_read_fst (h : t.Sound) (r : Reading) :
    (t.perform (.read r)).1 = .ok (.keys ((t.slice r).map (·.key))) := by
  rw [← h.passage_slice]
  rfl

/-- A read lists exactly a slice of the rows on one side of the cursor, and goes on to where the
slice ends. -/
theorem readsSlice_of_reachable (h : t.Reachable) (r : Reading) : t.ReadsSlice r := by
  have hs := h.sound
  have goesOn (ha : r.advance = true) : (t.perform (.read r)).2.cursor = t.readStop r := by
    rw [perform_read, if_pos ha]
  refine ⟨hs.perform_read_fst r, ?_, fun ha => ?_, ?_, fun ha hm hl => ?_, fun ha hm hl => ?_⟩
  · refine Nat.le_min.2 ⟨List.length_take_le .., ?_⟩
    exact Nat.le_trans (List.length_take_le' ..) (hs.length_wanted_le_most r)
  · rw [perform_read, if_neg (by simp [ha])]
  · rw [perform_read]
    split
    all_goals rfl
  · rw [goesOn ha]
    exact hs.readStop_full hm hl
  · rw [goesOn ha]
    exact hs.readStop_short hm hl

/-- Five rows, of which every other one is hidden, with the cursor past the end. -/
def striped : Table :=
  (empty {} .bytewise).run [.put ⟨1, 1⟩ [Column.binary [1]] true,
    .put ⟨1, 2⟩ [Column.binary [2]] false, .put ⟨1, 3⟩ [Column.binary [3]] true,
    .put ⟨1, 4⟩ [Column.binary [4]] false, .put ⟨1, 5⟩ [Column.binary [5]] true,
    .lowerBound [Column.binary [6]]]

def readBack (count : Nat) : Reading :=
  { count := count, backward := true, hidden := true, advance := true }

/-- Back from past the end a read starts with the last visible row. A read of two rows goes on to
the visible row before them; a read of all rows leaves out the hidden one at the end and goes on to
before the first row. -/
theorem readsSlice_of_striped :
    striped.Reachable ∧
      striped.perform (.read (readBack 2)) =
        (.ok (.keys [⟨1, 4⟩, ⟨1, 3⟩]), { striped with cursor := .row ⟨1, 2⟩ }) ∧
      striped.perform (.read (readBack 9)) =
        (.ok (.keys [⟨1, 4⟩, ⟨1, 3⟩, ⟨1, 2⟩, ⟨1, 1⟩]), { striped with cursor := .beforeFirst }) := by
  have hreachable : striped.Reachable := ⟨{}, .bytewise, _, rfl, rfl⟩
  have htwo := readsSlice_of_reachable hreachable (readBack 2)
  have hnine := readsSlice_of_reachable hreachable (readBack 9)
  have hrows : striped.entries = [⟨⟨⟨1, 1⟩, [Column.binary [1]], 0⟩, true⟩,
      ⟨⟨⟨1, 2⟩, [Column.binary [2]], 1⟩, false⟩] ++ ⟨⟨⟨1, 3⟩, [Column.binary [3]], 2⟩, true⟩ ::
      [⟨⟨⟨1, 4⟩, [Column.binary [4]], 3⟩, false⟩, ⟨⟨⟨1, 5⟩, [Column.binary [5]], 4⟩, true⟩] := by
    cbv
  have hslice : striped.slice (readBack 2) = [⟨⟨⟨1, 4⟩, [Column.binary [4]], 3⟩, false⟩,
      ⟨⟨⟨1, 3⟩, [Column.binary [3]], 2⟩, true⟩] := by cbv
  have hslice' : (striped.slice (readBack 9)).map (·.key) =
      [⟨1, 4⟩, ⟨1, 3⟩, ⟨1, 2⟩, ⟨1, 1⟩] := by cbv
  have hmost : striped.most (readBack 2) = 2 := by cbv
  have hmost' : striped.most (readBack 9) = 5 := by cbv
  refine ⟨hreachable, Prod.ext ?_ ?_, Prod.ext ?_ ?_⟩
  · rw [htwo.answer, hslice]
    rfl
  · obtain ⟨xs, e, ys, he, hlast, hcursor⟩ :=
      htwo.full rfl (by rw [hmost]; decide) (by rw [hmost, hslice]; rfl)
    rw [hslice] at hlast
    cases hlast
    obtain ⟨hxs, -⟩ := (hrows ▸ hreachable.sound.distinct).split (hrows.symm.trans he) rfl
    rw [htwo.moves, hcursor, ← hxs]
    rfl
  · rw [hnine.answer, hslice']
  · rw [hnine.moves, hnine.short rfl (by rw [hmost']; decide) ?_]
    · rfl
    · rw [hmost', ← List.length_map (f := fun e : Entry => e.key), hslice']
      decide

end Table

end LiveTable
