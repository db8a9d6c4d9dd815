import LiveTable.Proofs.Table.Sound
import LiveTable.Proofs.Tree.Walk
import LiveTable.Table.Read

/-!
# Where the cursor goes

Steps, seeks, searches and reads leave the rows as they are and put the cursor on a row of the
table or on none. A forward read lists rows of what lies ahead of the cursor and leaves ahead of it
the rows that it has not passed (`Sound.read_forward`).
-/

namespace LiveTable.Table

variable {t : Table}

theorem Sound.visible_eq (h : t.Sound) : t.visible = visibleCount t.entries :=
  h.tree.counted.visible_eq

/-! ## What lies ahead -/

theorem Sound.reach_at?_first (h : t.Sound) {xs ys : List Entry} (he : t.entries = xs ++ ys) :
    reach .right (t.at? (.first ys .pastEnd)) = ys := by
  cases ys with
  | nil => rfl
  | cons e rest =>
    obtain ⟨f, hf, hs⟩ := h.focus? he
    rw [Position.first, at?, hf, hs.reach_right]

/-! ## Steps -/

theorem after_beforeFirst (t : Table) : t.after .beforeFirst = .first t.entries .pastEnd := by
  rw [after, Position.orEnd_eq .right, reach_outermost]
  rfl

theorem Sound.after_row (h : t.Sound) {xs ys : List Entry} {e : Entry}
    (he : t.entries = xs ++ e :: ys) : t.after (.row e.key) = .first ys .pastEnd := by
  obtain ⟨f, hf, hs⟩ := h.focus? he
  simp only [after, hf]
  rw [Position.orEnd_eq .right, reach_step, ← hs.after]
  rfl

theorem Sound.before_row (h : t.Sound) {xs ys : List Entry} {e : Entry}
    (he : t.entries = xs ++ e :: ys) :
    t.before (.row e.key) = .first xs.reverse .beforeFirst := by
  obtain ⟨f, hf, hs⟩ := h.focus? he
  simp only [before, hf]
  rw [Position.orStart_eq .left, reach_step, ← hs.before, Focus.before, List.reverse_reverse]

theorem Sound.select_lt (h : t.Sound) {rank : Nat} (hr : rank < t.visible) :
    ∃ xs e ys, t.entries = xs ++ e :: ys ∧ t.select rank = .row e.key ∧ e.hidden = false ∧
      visibleCount xs = rank := by
  obtain ⟨f, hf, hb⟩ := Tree.select_some h.tree.counted (h.visible_eq ▸ hr) []
  have hp : f.plug = t.tree := Tree.plug_of_select hf
  refine ⟨f.before, f.entry, f.after, ?_, ?_, Tree.visible_of_select hf, ?_⟩
  · rw [entries, ← hp, f.toList_plug]
  · rw [select, hf]
    rfl
  · rw [hb]
    exact Nat.zero_add rank

theorem Sound.select_ge (h : t.Sound) {rank : Nat} (hr : t.visible ≤ rank) :
    t.select rank = .pastEnd := by
  rw [select, Tree.select_none h.tree.counted (h.visible_eq ▸ hr)]
  rfl

theorem Sound.select_within (h : t.Sound) (rank : Nat) : (t.select rank).Within t.entries := by
  rcases Nat.lt_or_ge rank t.visible with hr | hr
  · obtain ⟨xs, e, ys, he, hp, -, -⟩ := h.select_lt hr
    rw [he, hp]
    exact hasKey_middle
  · rw [h.select_ge hr]
    trivial

theorem Sound.after_within (h : t.Sound) {p : Position} (hp : p.Within t.entries) :
    (t.after p).Within t.entries := by
  cases p with
  | beforeFirst =>
    rw [after_beforeFirst]
    exact Position.within_first (List.Subset.refl _) trivial
  | pastEnd => trivial
  | row key =>
    obtain ⟨xs, e, ys, he, rfl⟩ := HasKey.split hp
    rw [h.after_row he, he]
    exact Position.within_first (fun a ha => by simp [ha]) trivial

theorem Sound.before_within (h : t.Sound) {p : Position} (hp : p.Within t.entries) :
    (t.before p).Within t.entries := by
  cases p with
  | beforeFirst => trivial
  | pastEnd =>
    rw [before]
    split
    · trivial
    · exact h.select_within _
  | row key =>
    obtain ⟨xs, e, ys, he, rfl⟩ := HasKey.split hp
    rw [h.before_row he, he]
    exact Position.within_first (fun a ha => by simp [List.mem_reverse.1 ha]) trivial

/-! ## Searches -/

theorem reach_bound (t : Table) (probe : SortKey) : reach .right (t.bound probe) ⊆ t.entries := by
  rw [bound, reach_ascend, entries,
    ← Tree.toList_gap (fun e => !(t.compare e.columns probe).isLT) t.tree]
  exact List.subset_append_right _ _

theorem lowerBound_within (t : Table) (probe : SortKey) :
    (t.lowerBound probe).cursor.Within t.entries := by
  show (Position.orEnd (t.bound probe)).Within t.entries
  rw [Position.orEnd_eq .right]
  exact Position.within_first (t.reach_bound probe) trivial

/-! ## Seeks -/

theorem seek_cases (t : Table) (origin : Origin) (offset : Int) :
    (∃ fault, t.seek origin offset = .error fault) ∨
    ∃ travel p, t.seek origin offset = .ok (travel, { t with cursor := p }.note .sought) ∧
      (p = .beforeFirst ∧ t.visible = 0 ∨ ∃ rank, p = t.select rank) := by
  unfold seek
  cases h : t.origin origin with
  | error fault => exact .inl ⟨fault, rfl⟩
  | ok start =>
    refine .inr ⟨_, _, rfl, ?_⟩
    split
    · rename_i hv
      exact .inl ⟨rfl, hv⟩
    · exact .inr ⟨_, rfl⟩

/-! ## Reads -/

theorem Sound.readStart_within (h : t.Sound) (backward : Bool) :
    (t.readStart backward).Within t.entries := by
  unfold readStart
  split
  · exact h.before_within trivial
  · split
    · trivial
    · exact h.after_within trivial
  · exact h.cursor

def wants (r : Reading) (e : Entry) : Bool := r.hidden || e.isVisible

def sideOf (r : Reading) : Side := if r.backward then .left else .right

/-- The most rows that a read can list. -/
def most (t : Table) (r : Reading) : Nat := min r.count (if r.hidden then t.size else t.visible)

/-- The rows that a read lists and the row where it ends. -/
def passage (t : Table) (r : Reading) : List Entry × Option Focus :=
  gather (sideOf r) (wants r) (t.most r) (t.at? (t.readStart r.backward))

def readStop (t : Table) (r : Reading) : Position :=
  match t.readStart r.backward with
  | .row _ => if r.backward then .orStart (t.passage r).2 else .orEnd (t.passage r).2
  | position => position

theorem passage_split (t : Table) (r : Reading) :
    ∃ passed, reach (sideOf r) (t.at? (t.readStart r.backward)) =
        passed ++ reach (sideOf r) (t.passage r).2 ∧
      (t.passage r).1 = passed.filter (wants r) ∧
      ((t.passage r).1.length = t.most r ∧ passed.getLast? = (t.passage r).1.getLast? ∨
        (t.passage r).1.length < t.most r ∧ (t.passage r).2 = none) :=
  gather_split ..

theorem reach_at?_subset (t : Table) (side : Side) (p : Position) :
    reach side (t.at? p) ⊆ t.entries := by
  cases ha : t.at? p with
  | none => exact List.nil_subset _
  | some f =>
    obtain ⟨key, -, hf⟩ := at?_eq_some_iff.1 ha
    rw [entries, ← focus?_some hf]
    exact reach_subset side f

theorem Sound.readStop_within (h : t.Sound) (r : Reading) : (t.readStop r).Within t.entries := by
  have hstop : reach (sideOf r) (t.passage r).2 ⊆ t.entries := by
    obtain ⟨passed, hp, -⟩ := t.passage_split r
    refine List.Subset.trans ?_ (t.reach_at?_subset (sideOf r) (t.readStart r.backward))
    rw [hp]
    exact List.subset_append_right _ _
  unfold readStop
  split
  · split
    · rw [Position.orStart_eq (sideOf r)]
      exact Position.within_first hstop trivial
    · rw [Position.orEnd_eq (sideOf r)]
      exact Position.within_first hstop trivial
  · exact h.readStart_within _

theorem readStart_eq_beforeFirst (hs : t.readStart false = .beforeFirst) : t.entries = [] := by
  unfold readStart at hs
  split at hs
  · contradiction
  · split at hs
    · rename_i ht
      rw [entries, ht, Tree.toList_nil]
    · rw [after_beforeFirst] at hs
      cases he : t.entries with
      | nil => rfl
      | cons e rest =>
        rw [he] at hs
        cases hs
  · rename_i hn
    exact absurd hs (hn rfl)

theorem Sound.reach_readStart (h : t.Sound) :
    reach .right (t.at? (t.readStart false)) = t.cursor.ahead t.entries := by
  cases hc : t.cursor with
  | beforeFirst =>
    simp only [readStart, hc]
    split
    · rename_i ht
      rw [Position.ahead, entries, ht, Tree.toList_nil]
      rfl
    · rw [after_beforeFirst]
      exact h.reach_at?_first (List.nil_append _).symm
  | row key =>
    have hw := h.cursor
    rw [hc] at hw
    obtain ⟨xs, e, ys, he, rfl⟩ := HasKey.split hw
    simp only [readStart, hc]
    rw [he, Position.ahead_row (he ▸ h.distinct)]
    show reach .right (t.at? (.first (e :: ys) .pastEnd)) = _
    exact h.reach_at?_first he
  | pastEnd =>
    simp only [readStart, hc]
    rfl

/-- A forward read lists the wanted rows among those that it passes, and what it has not passed
lies ahead of its end; it passes all rows or lists as many as it can. -/
theorem Sound.read_forward (h : t.Sound) {r : Reading} (hb : r.backward = false) :
    ∃ passed, t.cursor.ahead t.entries = passed ++ (t.readStop r).ahead t.entries ∧
      (t.passage r).1 = passed.filter (wants r) ∧
      ((t.passage r).1.length = t.most r ∨ (t.readStop r).ahead t.entries = []) := by
  have hside : sideOf r = .right := by simp [sideOf, hb]
  obtain ⟨passed, h1, h2, h3⟩ := t.passage_split r
  rw [hside, hb, h.reach_readStart] at h1
  have hstop : (t.readStop r).ahead t.entries = reach .right (t.passage r).2 := by
    obtain ⟨xs, hx⟩ := t.cursor.ahead_suffix t.entries
    have hnil (hat : t.at? (t.readStart false) = none) : reach .right (t.passage r).2 = [] := by
      have ha := h.reach_readStart
      rw [hat, h1] at ha
      exact (List.append_eq_nil_iff.1 ha.symm).2
    unfold readStop
    rw [hb]
    cases hs : t.readStart false with
    | row key =>
      simp only [Bool.false_eq_true, if_false]
      rw [Position.orEnd_eq .right]
      have hl : t.entries = (xs ++ passed) ++ reach .right (t.passage r).2 := by
        rw [List.append_assoc, ← h1]
        exact hx
      rw [hl]
      exact Position.ahead_first (hl ▸ h.distinct)
    | beforeFirst =>
      rw [hnil (by rw [hs]; rfl)]
      exact readStart_eq_beforeFirst hs
    | pastEnd =>
      rw [hnil (by rw [hs]; rfl)]
      rfl
  refine ⟨passed, hstop ▸ h1, h2, h3.imp And.left fun hn => ?_⟩
  rw [hstop, hn.2]
  rfl

end LiveTable.Table
