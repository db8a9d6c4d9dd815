import LiveTable.Tree.Edit
import LiveTable.Tree.Span

/-!
# Sound trees

A tree is sound if its stored numbers are the true ones and the two sides of every cell differ
in height by one at most. Nothing is said about the order of the rows. `balance` joins two sound
trees whose heights differ by two at most into a sound one, whose height is that of the higher
side or one more (`Sound.balance`). A subtree whose height has changed by one at most may
therefore be put back under its crumbs (`Sound.climb`), and the height of the whole changes by
one at most again. Insertion, removal and changes in place are instances.
-/

namespace LiveTable

namespace Tree

/-- The stored numbers are true and the sides of every cell are of about the same height. -/
structure Sound (t : Tree) : Prop where
  counted : t.Counted
  balanced : t.Balanced

abbrev Near (t u : Tree) : Prop := t.depth ≤ u.depth + 1 ∧ u.depth ≤ t.depth + 1

theorem Near.refl (t : Tree) : t.Near t := ⟨by omega, by omega⟩

theorem sound_nil : nil.Sound := ⟨trivial, trivial⟩

theorem Sound.left {l r : Tree} {c : Cell} (h : (node l c r).Sound) : l.Sound :=
  ⟨h.counted.1, h.balanced.1⟩

theorem Sound.right {l r : Tree} {c : Cell} (h : (node l c r).Sound) : r.Sound :=
  ⟨h.counted.2.1, h.balanced.2.1⟩

theorem Sound.near {l r : Tree} {c : Cell} (h : (node l c r).Sound) : l.Near r := h.balanced.2.2

theorem Sound.make {l r : Tree} (hl : l.Sound) (hr : r.Sound) (h : l.Near r) (e : Entry) :
    (make l e r).Sound :=
  ⟨hl.counted.make hr.counted e, hl.balanced, hr.balanced, h⟩

theorem Counted.leansLeft_iff {l r : Tree} {c : Cell} (h : (node l c r).Counted) :
    (node l c r).leansLeft = true ↔ r.depth < l.depth := by
  simp [leansLeft, h.1.height_eq, h.2.1.height_eq]

theorem Counted.leansRight_iff {l r : Tree} {c : Cell} (h : (node l c r).Counted) :
    (node l c r).leansRight = true ↔ l.depth < r.depth := by
  simp [leansRight, h.1.height_eq, h.2.1.height_eq]

/-! ## One cell -/

/-- What `balance` makes of two sound trees: a sound tree as high as the higher of them, or by one
higher, as it is whenever there is nothing to do. -/
structure Joined (l r t : Tree) : Prop where
  sound : t.Sound
  depth : max l.depth r.depth ≤ t.depth ∧ t.depth ≤ 1 + max l.depth r.depth ∧
    (l.Near r → t.depth = 1 + max l.depth r.depth)

theorem joined_make {l r : Tree} (hl : l.Sound) (hr : r.Sound) (h : l.Near r) (e : Entry) :
    Joined l r (.make l e r) where
  sound := hl.make hr h e
  depth := by simp

/-- A left side that is higher by two is lifted, after its own right side if that is the higher
one below. -/
theorem balance_of_left {l r : Tree} (hl : l.Sound) (hr : r.Sound) (e : Entry)
    (h : l.depth = r.depth + 2) :
    (∃ a x b y c, l = node a x (node b y c) ∧ a.depth < (node b y c).depth ∧
      balance l e r = ⟨make (make a x.toEntry b) y.toEntry (make c e r), 2⟩) ∨
    ∃ a x b, l = node a x b ∧ b.depth ≤ a.depth ∧
      balance l e r = ⟨make a x.toEntry (make b e r), 1⟩ := by
  have hlh : r.height + 1 < l.height := by rw [hl.counted.height_eq, hr.counted.height_eq]; omega
  rw [balance, if_pos hlh]
  obtain _ | ⟨a, x, b⟩ := l
  · simp [depth] at h
  split
  · rename_i hlean
    rw [hl.counted.leansRight_iff] at hlean
    obtain _ | ⟨b, y, c⟩ := b
    · simp [depth] at hlean
    exact .inl ⟨a, x, b, y, c, rfl, hlean, rfl⟩
  · rename_i hlean
    rw [hl.counted.leansRight_iff] at hlean
    exact .inr ⟨a, x, b, rfl, by omega, rfl⟩

/-- The mirror image of `balance_of_left`. -/
theorem balance_of_right {l r : Tree} (hl : l.Sound) (hr : r.Sound) (e : Entry)
    (h : r.depth = l.depth + 2) :
    (∃ a x b y c, r = node (node a x b) y c ∧ c.depth < (node a x b).depth ∧
      balance l e r = ⟨make (make l e a) x.toEntry (make b y.toEntry c), 2⟩) ∨
    ∃ b y c, r = node b y c ∧ b.depth ≤ c.depth ∧
      balance l e r = ⟨make (make l e b) y.toEntry c, 1⟩ := by
  have hlh : ¬ r.height + 1 < l.height := by
    rw [hl.counted.height_eq, hr.counted.height_eq]; omega
  have hrh : l.height + 1 < r.height := by rw [hl.counted.height_eq, hr.counted.height_eq]; omega
  rw [balance, if_neg hlh, if_pos hrh]
  obtain _ | ⟨b, y, c⟩ := r
  · simp [depth] at h
  split
  · rename_i hlean
    rw [hr.counted.leansLeft_iff] at hlean
    obtain _ | ⟨a, x, b⟩ := b
    · simp [depth] at hlean
    exact .inl ⟨a, x, b, y, c, rfl, hlean, rfl⟩
  · rename_i hlean
    rw [hr.counted.leansLeft_iff] at hlean
    exact .inr ⟨b, y, c, rfl, by omega, rfl⟩

theorem joined_balance_of_left {l r : Tree} (hl : l.Sound) (hr : r.Sound) (e : Entry)
    (h : l.depth = r.depth + 2) : Joined l r (balance l e r).tree := by
  rcases balance_of_left hl hr e h with ⟨a, x, b, y, c, rfl, hin, he⟩ | ⟨a, x, b, rfl, hout, he⟩
  · have hab := hl.near
    have hbc := hl.right.near
    rw [he]
    simp only [Near, depth] at hab hbc h hin
    refine ⟨(hl.left.make hl.right.left ?_ _).make (hl.right.right.make hr ?_ _) ?_ _, ?_⟩
      <;> simp only [Near, depth, depth_make] <;> omega
  · have hab := hl.near
    rw [he]
    simp only [Near, depth] at hab h
    refine ⟨hl.left.make (hl.right.make hr ?_ _) ?_ _, ?_⟩
      <;> simp only [Near, depth, depth_make] <;> omega

theorem joined_balance_of_right {l r : Tree} (hl : l.Sound) (hr : r.Sound) (e : Entry)
    (h : r.depth = l.depth + 2) : Joined l r (balance l e r).tree := by
  rcases balance_of_right hl hr e h with ⟨a, x, b, y, c, rfl, hin, he⟩ | ⟨b, y, c, rfl, hout, he⟩
  · have hbc := hr.near
    have hab := hr.left.near
    rw [he]
    simp only [Near, depth] at hab hbc h hin
    refine ⟨(hl.make hr.left.left ?_ _).make (hr.left.right.make hr.right ?_ _) ?_ _, ?_⟩
      <;> simp only [Near, depth, depth_make] <;> omega
  · have hbc := hr.near
    rw [he]
    simp only [Near, depth] at hbc h
    refine ⟨(hl.make hr.left ?_ _).make hr.right ?_ _, ?_⟩
      <;> simp only [Near, depth, depth_make] <;> omega

theorem balance_of_near {l r : Tree} (hl : l.Sound) (hr : r.Sound) (h : l.Near r) (e : Entry) :
    balance l e r = ⟨make l e r, 0⟩ := by
  have hlh : ¬ r.height + 1 < l.height := by
    rw [hl.counted.height_eq, hr.counted.height_eq]; omega
  have hrh : ¬ l.height + 1 < r.height := by
    rw [hl.counted.height_eq, hr.counted.height_eq]; omega
  rw [balance, if_neg hlh, if_neg hrh]

/-- Two sound trees that differ in height by two at most are joined to a sound one. -/
theorem Sound.balance {l r : Tree} (hl : l.Sound) (hr : r.Sound) (e : Entry)
    (hlr : l.depth ≤ r.depth + 2) (hrl : r.depth ≤ l.depth + 2) :
    Joined l r (balance l e r).tree := by
  by_cases h : l.Near r
  · rw [balance_of_near hl hr h]
    exact joined_make hl hr h e
  · rcases Nat.lt_or_ge l.depth r.depth with hlt | hge
    · exact joined_balance_of_right hl hr e (by omega)
    · exact joined_balance_of_left hl hr e (by omega)

end Tree

/-! ## Ways up -/

theorem sound_of_plugAll (above : List Crumb) {t : Tree} (h : (plugAll above t).Sound) :
    t.Sound := by
  induction above generalizing t with
  | nil => exact h
  | cons c cs ih =>
    have hc : (c.plug t).Sound := ih h
    obtain ⟨side, cell, sibling⟩ := c
    cases side with
    | left => exact hc.left
    | right => exact hc.right

/-- A sound subtree that is about as high as another may be put in its place. -/
theorem Crumb.sound_balance {c : Crumb} {t u : Tree} (h : (c.plug t).Sound) (hu : u.Sound)
    (hn : t.Near u) : (c.balance u).tree.Sound ∧ (c.plug t).Near (c.balance u).tree := by
  obtain ⟨side, cell, sibling⟩ := c
  cases side with
  | left =>
    have hs : sibling.Sound := h.right
    have hn' : t.Near sibling := h.near
    have hj := hu.balance hs cell.toEntry (by omega) (by omega)
    have hd := hj.depth
    refine ⟨hj.sound, ?_⟩
    simp only [Crumb.plug, Crumb.balance, Tree.Near, Tree.depth]
    omega
  | right =>
    have hs : sibling.Sound := h.left
    have hn' : sibling.Near t := h.near
    have hj := hs.balance hu cell.toEntry (by omega) (by omega)
    have hd := hj.depth
    refine ⟨hj.sound, ?_⟩
    simp only [Crumb.plug, Crumb.balance, Tree.Near, Tree.depth]
    omega

theorem Tree.Sound.climb {above : List Crumb} {t u : Tree} (h : (plugAll above t).Sound)
    (hu : u.Sound) (hn : t.Near u) : (climb above u).tree.Sound := by
  induction above generalizing t u with
  | nil => exact hu
  | cons c cs ih =>
    obtain ⟨h1, h2⟩ := Crumb.sound_balance (sound_of_plugAll cs h) hu hn
    exact ih (t := c.plug t) h h1 h2

namespace Tree

/-! ## Insertion and removal -/

theorem Sound.plant {t : Tree} (h : t.Sound) (goLeft : Entry → Bool) (e : Entry) :
    (plant (t.gap goLeft []) e).tree.Sound := by
  have ht : (plugAll (t.gap goLeft []) nil).Sound := by rw [plugAll_gap]; exact h
  refine ht.climb (sound_nil.make sound_nil (.refl nil) e) ?_
  simp [Near, depth]

/-- Without its last row a tree is as high as before or by one lower. -/
theorem Sound.popLast? {t : Tree} {e : Entry} {rest : Rebuilt} (h : t.Sound)
    (hp : t.popLast? = some (e, rest)) :
    rest.tree.Sound ∧ rest.tree.depth ≤ t.depth ∧ t.depth ≤ rest.tree.depth + 1 := by
  induction t generalizing e rest with
  | nil => cases hp
  | node l c r _ ihr =>
    have hn := h.near
    simp only [Tree.popLast?] at hp
    split at hp
    · rename_i hr
      cases hp
      rw [popLast?_eq_none_iff.1 hr] at hn ⊢
      simp only [Near, depth] at hn ⊢
      exact ⟨h.left, by omega, by omega⟩
    · rename_i hr
      cases hp
      obtain ⟨hs, h1, h2⟩ := ihr h.right hr
      have hj := h.left.balance hs c.toEntry (by omega) (by omega)
      have hd := hj.depth
      simp only [depth]
      exact ⟨hj.sound, by omega, by omega⟩

/-- The two sides of a cell are joined to a tree that is as high as the cell or by one lower. -/
theorem Sound.merge {l r : Tree} {c : Cell} (h : (node l c r).Sound) :
    (merge l r).tree.Sound ∧ (node l c r).Near (merge l r).tree := by
  have hn := h.near
  unfold Tree.merge
  split
  · simp only [Near, depth] at hn ⊢
    exact ⟨h.left, by omega, by omega⟩
  · split
    · rename_i hp
      rw [popLast?_eq_none_iff.1 hp] at hn ⊢
      simp only [Near, depth] at hn ⊢
      exact ⟨h.right, by omega, by omega⟩
    · rename_i e rest hp
      obtain ⟨hs, h1, h2⟩ := h.left.popLast? hp
      have hj := hs.balance h.right e (by omega) (by omega)
      have hd := hj.depth
      simp only [Near, depth]
      exact ⟨hj.sound, by omega, by omega⟩

end Tree

theorem Focus.sound_remove {f : Focus} (h : f.plug.Sound) : f.remove.tree.Sound := by
  have hs : f.subtree.Sound := sound_of_plugAll f.above h
  obtain ⟨h1, h2⟩ := Tree.Sound.merge hs
  exact Tree.Sound.climb h h1 h2

/-! ## Changes in place -/

theorem Tree.Sound.mapWhile {t : Tree} (h : t.Sound) (p : Entry → Bool) (change : Entry → Entry) :
    (t.mapWhile p change).1.Sound ∧ (t.mapWhile p change).1.depth = t.depth := by
  induction t with
  | nil => exact ⟨h, rfl⟩
  | node l c r ihl ihr =>
    obtain ⟨hl, hld⟩ := ihl h.left
    obtain ⟨hr, hrd⟩ := ihr h.right
    have hn := h.near
    simp only [Tree.mapWhile]
    split
    · rename_i hm
      simp only [hm] at hl hld
      exact ⟨hl.make h.right (by omega) _, by simp only [depth_make, depth, hld]⟩
    · rename_i hm
      simp only [hm] at hl hld
      split
      · exact ⟨hl.make hr (by omega) _, by simp only [depth_make, depth, hld, hrd]⟩
      · exact ⟨hl.make h.right (by omega) _, by simp only [depth_make, depth, hld]⟩

theorem sound_mapAbove {above : List Crumb} {t u : Tree} (h : (plugAll above t).Sound)
    (hu : u.Sound) (hd : u.depth = t.depth) (p : Entry → Bool) (change : Entry → Entry)
    (more : Bool) : (mapAbove p change above u more).Sound := by
  induction above generalizing t u more with
  | nil => exact hu
  | cons c cs ih =>
    have hc : (c.plug t).Sound := sound_of_plugAll cs h
    have next {v : Tree} (hv : v.Sound) (hvd : v.depth = (c.plug t).depth) (more : Bool) :
        (mapAbove p change cs v more).Sound := ih (t := c.plug t) h hv hvd more
    obtain ⟨side, cell, sibling⟩ := c
    cases side with
    | left =>
      have hn : t.Near sibling := hc.near
      have hs : sibling.Sound := hc.right
      obtain ⟨hm, hmd⟩ := hs.mapWhile p change
      simp only [mapAbove]
      cases more && p cell.toEntry with
      | true =>
        exact next (hu.make hm (by omega) _)
          (by simp only [Tree.depth_make, Crumb.plug, Tree.depth, hd, hmd]) _
      | false =>
        exact next (hu.make hs (by omega) _)
          (by simp only [Tree.depth_make, Crumb.plug, Tree.depth, hd]) _
    | right =>
      have hn : sibling.Near t := hc.near
      have hs : sibling.Sound := hc.left
      simp only [mapAbove]
      exact next (hs.make hu (by omega) _)
        (by simp only [Tree.depth_make, Crumb.plug, Tree.depth, hd]) _

theorem Focus.sound_mapWhile {f : Focus} (h : f.plug.Sound) (p : Entry → Bool)
    (change : Entry → Entry) : (f.mapWhile p change).Sound := by
  have hs : f.subtree.Sound := sound_of_plugAll f.above h
  have hn : f.left.Near f.right := hs.near
  obtain ⟨hm, hmd⟩ := hs.right.mapWhile p change
  exact sound_mapAbove h (hs.left.make hm (by omega) _)
    (by simp only [Tree.depth_make, subtree, Tree.depth, hmd]) p change _

end LiveTable
