import LiveTable.Tree.Focus

/-!
# Runs of rows

From a row one walks to either side: over all rows that satisfy a predicate
(`span`), or until a number of wanted rows has been met (`gather`). Both answer
with the rows met and the row where the walk ended. `mapWhile` changes the rows of
a run in place.
-/

namespace LiveTable

/-- The rows from a position on, on the way to a side. -/
def reach (side : Side) : Option Focus → List Entry
  | none => []
  | some f => f.entry :: f.onward side

theorem reach_step (f : Focus) (side : Side) : reach side (f.step side) = f.onward side := by
  cases h : f.step side with
  | none => rw [reach, Focus.step_none h]
  | some g => rw [reach, (Focus.step_some h).1]

theorem length_reach_step (f : Focus) (side : Side) :
    (reach side (f.step side)).length < (reach side (some f)).length := by
  rw [reach_step]
  simp [reach]

/-! ## Walks -/

/-- Walks over the rows that satisfy `p`. -/
def span (side : Side) (p : Entry → Bool) (start : Option Focus) : List Entry × Option Focus :=
  match start with
  | none => ([], none)
  | some f =>
    if p f.entry then
      let (rows, stop) := span side p (f.step side)
      (f.entry :: rows, stop)
    else ([], some f)
termination_by (reach side start).length
decreasing_by exact length_reach_step f side

theorem span_rows (side : Side) (p : Entry → Bool) (start : Option Focus) :
    (span side p start).1 = (reach side start).takeWhile p := by
  fun_induction span side p start with
  | case1 => rfl
  | case2 f hp rows stop hs ih =>
    rw [hs, reach_step] at ih
    simp [reach, hp, ← ih]
  | case3 f hp => simp [reach, hp]

theorem span_stop (side : Side) (p : Entry → Bool) (start : Option Focus) :
    reach side (span side p start).2 = (reach side start).dropWhile p := by
  fun_induction span side p start with
  | case1 => rfl
  | case2 f hp rows stop hs ih =>
    rw [hs, reach_step] at ih
    simp [reach, hp, ← ih]
  | case3 f hp => simp [reach, hp]

/-- Walks until `count` rows that satisfy `wanted` have been met. -/
def gather (side : Side) (wanted : Entry → Bool) (count : Nat) (start : Option Focus) :
    List Entry × Option Focus :=
  match count, start with
  | 0, start => ([], start)
  | _ + 1, none => ([], none)
  | count + 1, some f =>
    if wanted f.entry then
      let (rows, stop) := gather side wanted count (f.step side)
      (f.entry :: rows, stop)
    else gather side wanted (count + 1) (f.step side)
termination_by (reach side start).length
decreasing_by all_goals exact length_reach_step f side

theorem gather_rows (side : Side) (wanted : Entry → Bool) (count : Nat) (start : Option Focus) :
    (gather side wanted count start).1 = ((reach side start).filter wanted).take count := by
  fun_induction gather side wanted count start with
  | case1 => simp
  | case2 => simp [reach]
  | case3 n f hw rows stop hs ih =>
    rw [hs, reach_step] at ih
    simp [reach, hw, ← ih]
  | case4 n f hw ih =>
    rw [reach_step] at ih
    simp [reach, hw, ih]

/-! ## Changes in place -/

/-- Applies `change` to the leading elements that satisfy `p`. -/
def changeWhile {α : Type} (p : α → Bool) (change : α → α) (l : List α) : List α :=
  (l.takeWhile p).map change ++ l.dropWhile p

/-- Applies `change` to the leading rows that satisfy `p`; says whether all rows did. -/
def Tree.mapWhile (p : Entry → Bool) (change : Entry → Entry) : Tree → Tree × Bool
  | nil => (nil, true)
  | node l c r =>
    match l.mapWhile p change with
    | (l, false) => (make l c.toEntry r, false)
    | (l, true) =>
      if p c.toEntry then
        let (r, all) := r.mapWhile p change
        (make l (change c.toEntry) r, all)
      else (make l c.toEntry r, false)

/-- Goes on changing rows above a subtree, for as long as `more` holds. -/
def mapAbove (p : Entry → Bool) (change : Entry → Entry) : List Crumb → Tree → Bool → Tree
  | [], t, _ => t
  | c :: above, t, more =>
    match c.side, more && p c.cell.toEntry with
    | .left, true =>
      let (sibling, more) := c.sibling.mapWhile p change
      mapAbove p change above (.make t (change c.cell.toEntry) sibling) more
    | .left, false => mapAbove p change above (.make t c.cell.toEntry c.sibling) false
    | .right, _ => mapAbove p change above (.make c.sibling c.cell.toEntry t) more

/-- Applies `change` to the rows directly after the focus that satisfy `p`. -/
def Focus.mapWhile (p : Entry → Bool) (change : Entry → Entry) (f : Focus) : Tree :=
  let (right, more) := f.right.mapWhile p change
  mapAbove p change f.above (.make f.left f.entry right) more

section

variable (p : Entry → Bool) (change : Entry → Entry)

theorem changeWhile_cons_of_pos {e : Entry} {rows : List Entry} (h : p e = true) :
    changeWhile p change (e :: rows) = change e :: changeWhile p change rows := by
  simp [changeWhile, h]

theorem changeWhile_cons_of_neg {e : Entry} {rows : List Entry} (h : p e = false) :
    changeWhile p change (e :: rows) = e :: rows := by
  simp [changeWhile, h]

theorem changeWhile_append_of_all {xs ys : List Entry} (h : xs.all p = true) :
    changeWhile p change (xs ++ ys) = xs.map change ++ changeWhile p change ys := by
  induction xs with
  | nil => simp
  | cons x xs ih =>
    simp only [List.all_cons, Bool.and_eq_true] at h
    rw [List.cons_append, changeWhile_cons_of_pos p change h.1, ih h.2]
    rfl

theorem changeWhile_append_of_not_all {xs ys : List Entry} (h : xs.all p = false) :
    changeWhile p change (xs ++ ys) = changeWhile p change xs ++ ys := by
  induction xs with
  | nil => simp at h
  | cons x xs ih =>
    cases hx : p x with
    | false => simp [changeWhile_cons_of_neg p change hx]
    | true =>
      simp only [List.all_cons, hx, Bool.true_and] at h
      rw [List.cons_append, changeWhile_cons_of_pos p change hx, ih h,
        changeWhile_cons_of_pos p change hx]
      rfl

theorem changeWhile_of_all {xs : List Entry} (h : xs.all p = true) :
    changeWhile p change xs = xs.map change := by
  have := @changeWhile_append_of_all p change xs [] h
  simpa [changeWhile] using this

theorem Tree.mapWhile_eq (t : Tree) :
    (t.mapWhile p change).1.toList = changeWhile p change t.toList ∧
      (t.mapWhile p change).2 = t.toList.all p := by
  induction t with
  | nil => exact ⟨rfl, rfl⟩
  | node l c r ihl ihr =>
    obtain ⟨hl, hla⟩ := ihl
    obtain ⟨hr, hra⟩ := ihr
    simp only [mapWhile]
    split
    · rename_i l' hm
      rw [hm] at hl hla
      simp only at hl hla
      rw [toList_node, changeWhile_append_of_not_all p change hla.symm, ← hl]
      simp [← hla]
    · rename_i l' hm
      rw [hm] at hl hla
      simp only at hl hla
      have hmap := changeWhile_of_all p change hla.symm
      rw [toList_node, changeWhile_append_of_all p change hla.symm]
      cases hp : p c.toEntry with
      | false =>
        rw [changeWhile_cons_of_neg p change hp]
        simp [hl, hmap, hp]
      | true =>
        rw [changeWhile_cons_of_pos p change hp]
        simp [hl, hmap, hp, hr, hra, ← hla]

theorem toList_mapAbove (above : List Crumb) (t : Tree) (more : Bool) :
    (mapAbove p change above t more).toList =
      (rowsAbove .left above).reverse ++ t.toList ++
        (if more then changeWhile p change (rowsAbove .right above)
        else rowsAbove .right above) := by
  induction above generalizing t more with
  | nil => cases more <;> simp [mapAbove, rowsAbove, changeWhile]
  | cons c cs ih =>
    obtain ⟨side, cell, sibling⟩ := c
    rw [rowsAbove_cons, rowsAbove_cons]
    cases side with
    | right =>
      simp only [mapAbove]
      rw [ih]
      simp [Crumb.onward, Side.other, Tree.listing]
    | left =>
      obtain ⟨h1, h2⟩ := sibling.mapWhile_eq p change
      have hl : Crumb.onward .left ⟨.left, cell, sibling⟩ = [] := by
        simp [Crumb.onward, Side.other]
      have hr : Crumb.onward .right ⟨.left, cell, sibling⟩ = cell.toEntry :: sibling.toList := by
        simp [Crumb.onward, Side.other, Tree.listing]
      rw [hl, hr]
      cases more with
      | false =>
        simp only [mapAbove, Bool.false_and]
        rw [ih]
        simp
      | true =>
        cases hp : p cell.toEntry with
        | false =>
          simp only [mapAbove, hp, Bool.and_false]
          rw [ih]
          simp [changeWhile_cons_of_neg p change hp]
        | true =>
          simp only [mapAbove, hp, Bool.and_true]
          rw [ih]
          simp only [if_true, List.cons_append, changeWhile_cons_of_pos p change hp]
          cases ha : sibling.toList.all p with
          | false =>
            rw [changeWhile_append_of_not_all p change ha, h2, ha]
            simp [h1]
          | true =>
            have hmap := changeWhile_of_all p change ha
            rw [changeWhile_append_of_all p change ha, h2, ha]
            simp [h1, hmap]

theorem Focus.toList_mapWhile (f : Focus) :
    (f.mapWhile p change).toList =
      f.before ++ f.entry :: changeWhile p change f.after := by
  obtain ⟨h1, h2⟩ := f.right.mapWhile_eq p change
  simp only [mapWhile, toList_mapAbove, Tree.toList_make, before, after, onward, child,
    Tree.listing, h1, h2]
  cases ha : f.right.toList.all p with
  | false => simp [changeWhile_append_of_not_all p change ha]
  | true =>
    have hmap := changeWhile_of_all p change ha
    simp [changeWhile_append_of_all p change ha, hmap]

end

end LiveTable
