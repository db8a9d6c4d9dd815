import LiveTable.Proofs.Tree.Sound

/-!
# The shape of a tree

The shape of a tree is how its cells hang together, whatever rows they hold. Shape and rows
determine a tree whose stored numbers are true (`Counted.eq_of_shape`). A change of rows in place
keeps the shape, so that it comes to the same as one pass over the whole tree that changes every row
and counts anew (`revise`, `Focus.mapWhile_eq_revise`); and such passes are put together as the
changes are (`revise_revise`).
-/

namespace LiveTable

/-- A tree without its rows. -/
inductive Shape where
  | leaf
  | fork (left right : Shape)
  deriving DecidableEq

namespace Tree

def shape : Tree → Shape
  | nil => .leaf
  | node l _ r => .fork l.shape r.shape

@[simp] theorem shape_make (l : Tree) (e : Entry) (r : Tree) :
    (make l e r).shape = .fork l.shape r.shape := rfl

theorem shape_eq_fork {t : Tree} {a b : Shape} (h : t.shape = .fork a b) :
    ∃ l c r, t = node l c r ∧ l.shape = a ∧ r.shape = b := by
  cases t with
  | nil => cases h
  | node l c r =>
    cases h
    exact ⟨l, c, r, rfl, rfl, rfl⟩

theorem length_eq_of_shape {t u : Tree} (h : t.shape = u.shape) :
    t.toList.length = u.toList.length := by
  induction t generalizing u with
  | nil =>
    cases u with
    | nil => rfl
    | node l c r => cases h
  | node l c r ihl ihr =>
    obtain ⟨l', c', r', rfl, hl, hr⟩ := shape_eq_fork h.symm
    simp only [toList_node, List.length_append, List.length_cons, ihl hl.symm, ihr hr.symm]

/-- Where the stored numbers are true there is nothing to a tree but its shape and its rows. -/
theorem Counted.eq_of_shape {t u : Tree} (ht : t.Counted) (hu : u.Counted)
    (hs : t.shape = u.shape) (he : t.toList = u.toList) : t = u := by
  induction t generalizing u with
  | nil =>
    cases u with
    | nil => rfl
    | node l c r => cases hs
  | node l c r ihl ihr =>
    obtain ⟨l', c', r', rfl, hl, hr⟩ := shape_eq_fork hs.symm
    obtain ⟨hlc, hrc, hheight, hvisible⟩ := ht
    obtain ⟨hlc', hrc', hheight', hvisible'⟩ := hu
    -- sides of equal shapes have equally many rows, so that the lists split alike
    obtain ⟨hll, hrest⟩ := List.append_inj he (length_eq_of_shape hl.symm)
    obtain ⟨hentry, hrr⟩ := List.cons.inj hrest
    cases ihl hlc hlc' hl.symm hll
    cases ihr hrc hrc' hr.symm hrr
    have hcell : c = c' := by
      rw [← hheight'] at hheight
      rw [hentry, ← hvisible'] at hvisible
      cases c
      cases c'
      cases hentry
      cases hheight
      cases hvisible
      rfl
    rw [hcell]

/-! ## One pass over a tree -/

/-- The tree with every row changed, counted anew. -/
def revise (change : Entry → Entry) : Tree → Tree
  | nil => nil
  | node l c r => make (l.revise change) (change c.toEntry) (r.revise change)

section

variable (change : Entry → Entry) (t : Tree)

@[simp] theorem toList_revise : (t.revise change).toList = t.toList.map change := by
  induction t with
  | nil => rfl
  | node l c r ihl ihr => simp [revise, ihl, ihr]

theorem shape_revise : (t.revise change).shape = t.shape := by
  induction t with
  | nil => rfl
  | node l c r ihl ihr => rw [revise, shape_make, ihl, ihr, shape]

theorem counted_revise : (t.revise change).Counted := by
  induction t with
  | nil => trivial
  | node l c r ihl ihr => exact ihl.make ihr _

theorem revise_revise (change' : Entry → Entry) :
    (t.revise change).revise change' = t.revise (change' ∘ change) := by
  induction t with
  | nil => rfl
  | node l c r ihl ihr =>
    show make ((l.revise change).revise change') _ ((r.revise change).revise change') = _
    rw [ihl, ihr]
    rfl

end

/-! ## Changes in place -/

theorem shape_mapWhile (p : Entry → Bool) (change : Entry → Entry) (t : Tree) :
    (t.mapWhile p change).1.shape = t.shape := by
  induction t with
  | nil => rfl
  | node l c r ihl ihr =>
    simp only [mapWhile, shape]
    split
    · rename_i hm
      rw [hm] at ihl
      rw [shape_make, ihl]
    · rename_i hm
      rw [hm] at ihl
      split
      · rw [shape_make, ihl, ihr]
      · rw [shape_make, ihl]

end Tree

theorem Crumb.shape_plug_congr (c : Crumb) {t u : Tree} (h : t.shape = u.shape) :
    (c.plug t).shape = (c.plug u).shape := by
  obtain ⟨side, cell, sibling⟩ := c
  cases side <;> simp only [plug, Tree.shape, h]

theorem shape_plugAll_congr (above : List Crumb) {t u : Tree} (h : t.shape = u.shape) :
    (plugAll above t).shape = (plugAll above u).shape := by
  induction above generalizing t u with
  | nil => exact h
  | cons c cs ih => exact ih (c.shape_plug_congr h)

theorem shape_mapAbove (p : Entry → Bool) (change : Entry → Entry) (above : List Crumb) (t : Tree)
    (more : Bool) : (mapAbove p change above t more).shape = (plugAll above t).shape := by
  induction above generalizing t more with
  | nil => rfl
  | cons c cs ih =>
    have next {u : Tree} (hu : u.shape = (c.plug t).shape) (more : Bool) :
        (mapAbove p change cs u more).shape = (plugAll (c :: cs) t).shape :=
      (ih u more).trans (shape_plugAll_congr cs hu)
    obtain ⟨side, cell, sibling⟩ := c
    cases side with
    | left =>
      simp only [mapAbove]
      cases more && p cell.toEntry with
      | true =>
        refine next ?_ _
        rw [Tree.shape_make, Tree.shape_mapWhile]
        rfl
      | false =>
        refine next ?_ _
        rfl
    | right =>
      simp only [mapAbove]
      refine next ?_ _
      rfl

theorem Focus.shape_mapWhile (f : Focus) (p : Entry → Bool) (change : Entry → Entry) :
    (f.mapWhile p change).shape = f.plug.shape := by
  simp only [mapWhile, shape_mapAbove]
  exact shape_plugAll_congr f.above (by rw [Tree.shape_make, Tree.shape_mapWhile]; rfl)

/-- A change in place that changes the list of rows as a pass does is that pass. -/
theorem Focus.mapWhile_eq_revise {f : Focus} (h : f.plug.Sound) {p : Entry → Bool}
    {change change' : Entry → Entry}
    (he : (f.mapWhile p change).toList = f.plug.toList.map change') :
    f.mapWhile p change = f.plug.revise change' :=
  (Focus.sound_mapWhile h p change).counted.eq_of_shape (Tree.counted_revise ..)
    ((f.shape_mapWhile p change).trans (Tree.shape_revise ..).symm)
    (he.trans (Tree.toList_revise ..).symm)

end LiveTable
