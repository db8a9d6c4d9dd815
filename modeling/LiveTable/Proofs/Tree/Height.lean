import LiveTable.Proofs.Tree.Sound
import LiveTable.Tree.Rank
import Mathlib.Data.Nat.Fib.Basic

/-!
# Heights and walks

A tree whose sides differ in height by one at most cannot be high with few rows: the sparsest one of
a given height is a cell over the sparsest ones of the two heights below, so that the rows, one more
counted, are at least a Fibonacci number (`Balanced.fib_le`).

The walks in a tree are repeated here with a record of the cells that they visit (`Walk`): the
descents to a gap, to the first row of an upper part and to the row of a rank, and the way up on
which a rank is added up. Each of them stays on one branch of the tree (`Branch`) and visits no more
cells than the tree is high.
-/

namespace LiveTable

namespace Tree

/-! ## Heights -/

/-- A tree has at least as many rows as the sparsest one of its height. -/
theorem Balanced.fib_le {t : Tree} (h : t.Balanced) :
    Nat.fib (t.depth + 2) ≤ t.toList.length + 1 := by
  induction t with
  | nil => decide
  | node l c r ihl ihr =>
    obtain ⟨hl, hr, hlr, hrl⟩ := h
    have hleft := ihl hl
    have hright := ihr hr
    have hlength : (node l c r).toList.length = l.toList.length + r.toList.length + 1 := by
      simp only [toList_node, List.length_append, List.length_cons]
      omega
    -- the lower side is as high as the higher one, or lower by one
    have hsum : Nat.fib (max l.depth r.depth + 1) + Nat.fib (max l.depth r.depth + 2) ≤
        Nat.fib (l.depth + 2) + Nat.fib (r.depth + 2) := by
      rcases Nat.le_total l.depth r.depth with hle | hle
      · rw [Nat.max_eq_right hle]
        exact Nat.add_le_add_right (Nat.fib_mono (by omega)) _
      · rw [Nat.max_eq_left hle, Nat.add_comm (Nat.fib (l.depth + 2))]
        exact Nat.add_le_add_right (Nat.fib_mono (by omega)) _
    calc Nat.fib ((node l c r).depth + 2)
        = Nat.fib (max l.depth r.depth + 1 + 2) := by
          rw [depth, Nat.add_comm 1]
      _ = Nat.fib (max l.depth r.depth + 1) + Nat.fib (max l.depth r.depth + 2) := Nat.fib_add_two
      _ ≤ (node l c r).toList.length + 1 := by omega

theorem Sound.depth_merge_le {l r : Tree} {c : Cell} (h : (node l c r).Sound) :
    (Tree.merge l r).tree.depth ≤ (node l c r).depth := by
  have hn := h.near
  unfold Tree.merge
  split
  · simp only [depth]
    omega
  · split
    · simp only [depth]
      omega
    · rename_i e rest hp
      obtain ⟨hs, hle, hge⟩ := h.left.popLast? hp
      have hd := (hs.balance h.right e (by omega) (by omega)).depth
      simp only [depth]
      omega

end Tree

/-- Balancing a cell does not make it higher than it was under a side that was as high or higher. -/
theorem Crumb.depth_balance_le {c : Crumb} {t u : Tree} (h : (c.plug t).Sound) (hu : u.Sound)
    (hn : t.Near u) (hle : u.depth ≤ t.depth) : (c.balance u).tree.depth ≤ (c.plug t).depth := by
  obtain ⟨side, cell, sibling⟩ := c
  cases side with
  | left =>
    have hs : sibling.Sound := h.right
    have hts : t.Near sibling := h.near
    have hd := (hu.balance hs cell.toEntry (by omega) (by omega)).depth
    simp only [plug, balance, Tree.depth]
    omega
  | right =>
    have hs : sibling.Sound := h.left
    have hts : sibling.Near t := h.near
    have hd := (hs.balance hu cell.toEntry (by omega) (by omega)).depth
    simp only [plug, balance, Tree.depth]
    omega

theorem Tree.Sound.depth_climb_le {above : List Crumb} {t u : Tree} (h : (plugAll above t).Sound)
    (hu : u.Sound) (hn : t.Near u) (hle : u.depth ≤ t.depth) :
    (LiveTable.climb above u).tree.depth ≤ (plugAll above t).depth := by
  induction above generalizing t u with
  | nil => exact hle
  | cons c cs ih =>
    have hc : (c.plug t).Sound := sound_of_plugAll cs h
    obtain ⟨hs, hnear⟩ := Crumb.sound_balance hc hu hn
    exact ih (t := c.plug t) h hs hnear (Crumb.depth_balance_le hc hu hn hle)

theorem Focus.depth_remove_le {f : Focus} (h : f.plug.Sound) :
    f.remove.tree.depth ≤ f.plug.depth := by
  have hs : f.subtree.Sound := sound_of_plugAll f.above h
  obtain ⟨hm, hn⟩ := Tree.Sound.merge hs
  exact Tree.Sound.depth_climb_le h hm hn (Tree.Sound.depth_merge_le hs)

/-! ## Branches -/

/-- The cells lie one below the other, from the root of the tree down. -/
inductive Tree.Branch : Tree → List Cell → Prop where
  | stop (t : Tree) : Branch t []
  | left {l r : Tree} {c : Cell} {cells : List Cell} (h : Branch l cells) :
    Branch (.node l c r) (c :: cells)
  | right {l r : Tree} {c : Cell} {cells : List Cell} (h : Branch r cells) :
    Branch (.node l c r) (c :: cells)

namespace Tree

theorem Branch.length_le {t : Tree} {cells : List Cell} (h : t.Branch cells) :
    cells.length ≤ t.depth := by
  induction h with
  | stop t => exact Nat.zero_le _
  | left _ ih =>
    simp only [List.length_cons, depth]
    omega
  | right _ ih =>
    simp only [List.length_cons, depth]
    omega

theorem Branch.plugAll {t : Tree} {cells : List Cell} (h : t.Branch cells) (above : List Crumb) :
    (LiveTable.plugAll above t).Branch ((above.map (·.cell)).reverse ++ cells) := by
  induction above generalizing t cells with
  | nil => exact h
  | cons c cs ih =>
    have hc : (c.plug t).Branch (c.cell :: cells) := by
      obtain ⟨side, cell, sibling⟩ := c
      cases side with
      | left => exact .left h
      | right => exact .right h
    rw [List.map_cons, List.reverse_cons, List.append_assoc]
    exact ih hc

end Tree

/-! ## Walks -/

/-- What a walk comes to, and the cells that it visits, in this order. -/
structure Walk (α : Type) where
  result : α
  visited : List Cell

def Walk.visit {α : Type} (c : Cell) (w : Walk α) : Walk α := ⟨w.result, c :: w.visited⟩

namespace Tree

def gapWalk (goLeft : Entry → Bool) : Tree → List Crumb → Walk (List Crumb)
  | nil, above => ⟨above, []⟩
  | node l c r, above =>
    .visit c (if goLeft c.toEntry then l.gapWalk goLeft (⟨.left, c, r⟩ :: above)
      else r.gapWalk goLeft (⟨.right, c, l⟩ :: above))

/-- The descent to the first row after a gap: the last one to whose left it has gone, or `found` if
there is none. -/
def boundWalk (goLeft : Entry → Bool) : Tree → List Crumb → Option Focus → Walk (Option Focus)
  | nil, _, found => ⟨found, []⟩
  | node l c r, above, found =>
    .visit c (if goLeft c.toEntry then
        l.boundWalk goLeft (⟨.left, c, r⟩ :: above) (some ⟨l, c, r, above⟩)
      else r.boundWalk goLeft (⟨.right, c, l⟩ :: above) found)

/-- The descent to the visible row of a rank. -/
def selectWalk : Tree → Nat → List Crumb → Walk (Option Focus)
  | nil, _, _ => ⟨none, []⟩
  | node l c r, rank, above =>
    .visit c (if rank < l.visible then l.selectWalk rank (⟨.left, c, r⟩ :: above)
      else if c.hidden then r.selectWalk (rank - l.visible) (⟨.right, c, l⟩ :: above)
      else if rank = l.visible then ⟨some ⟨l, c, r, above⟩, []⟩
      else r.selectWalk (rank - l.visible - 1) (⟨.right, c, l⟩ :: above))

variable (goLeft : Entry → Bool) (t : Tree) (rank : Nat) (above : List Crumb)

theorem result_gapWalk : (t.gapWalk goLeft above).result = t.gap goLeft above := by
  induction t generalizing above with
  | nil => rfl
  | node l c r ihl ihr =>
    simp only [gapWalk, gap, Walk.visit]
    split
    · exact ihl _
    · exact ihr _

theorem branch_gapWalk : t.Branch (t.gapWalk goLeft above).visited := by
  induction t generalizing above with
  | nil => exact .stop _
  | node l c r ihl ihr =>
    simp only [gapWalk, Walk.visit]
    split
    · exact .left (ihl _)
    · exact .right (ihr _)

/-- One descent is enough: on the way down one passes the row that one would come to on the way back
up from the gap. -/
theorem result_boundWalk :
    (t.boundWalk goLeft above (ascend .right above t)).result =
      ascend .right (t.gap goLeft above) nil := by
  induction t generalizing above with
  | nil => rfl
  | node l c r ihl ihr =>
    simp only [boundWalk, gap, Walk.visit]
    split
    · exact ihl (⟨.left, c, r⟩ :: above)
    · exact ihr (⟨.right, c, l⟩ :: above)

theorem branch_boundWalk (found : Option Focus) :
    t.Branch (t.boundWalk goLeft above found).visited := by
  induction t generalizing above found with
  | nil => exact .stop _
  | node l c r ihl ihr =>
    simp only [boundWalk, Walk.visit]
    split
    · exact .left (ihl _ _)
    · exact .right (ihr _ _)

theorem result_selectWalk : (t.selectWalk rank above).result = t.select rank above := by
  induction t generalizing rank above with
  | nil => rfl
  | node l c r ihl ihr =>
    simp only [selectWalk, select, Walk.visit]
    repeat' split
    · exact ihl _ _
    · exact ihr _ _
    · rfl
    · exact ihr _ _

theorem branch_selectWalk : t.Branch (t.selectWalk rank above).visited := by
  induction t generalizing rank above with
  | nil => exact .stop _
  | node l c r ihl ihr =>
    simp only [selectWalk, Walk.visit]
    repeat' split
    · exact .left (ihl _ _)
    · exact .right (ihr _ _)
    · exact .left (.stop _)
    · exact .right (ihr _ _)

end Tree

def rankAboveWalk : List Crumb → Nat → Walk Nat
  | [], _ => ⟨0, []⟩
  | c :: above, below =>
    let rest := rankAboveWalk above c.cell.visible
    .visit c.cell ⟨(match c.side with
      | .left => 0
      | .right => c.cell.visible - below) + rest.result, rest.visited⟩

def Focus.rankWalk (f : Focus) : Walk Nat :=
  let rest := rankAboveWalk f.above f.cell.visible
  .visit f.cell ⟨f.left.visible + rest.result, rest.visited⟩

theorem result_rankAboveWalk (above : List Crumb) (below : Nat) :
    (rankAboveWalk above below).result = rankAbove above below := by
  induction above generalizing below with
  | nil => rfl
  | cons c cs ih =>
    rw [rankAboveWalk, rankAbove, ← ih]
    rfl

theorem visited_rankAboveWalk (above : List Crumb) (below : Nat) :
    (rankAboveWalk above below).visited = above.map (·.cell) := by
  induction above generalizing below with
  | nil => rfl
  | cons c cs ih => rw [rankAboveWalk, Walk.visit, ih, List.map_cons]

theorem Focus.result_rankWalk (f : Focus) : f.rankWalk.result = f.rank := by
  rw [rankWalk, rank, ← result_rankAboveWalk]
  rfl

/-- The cells that are visited on the way up are a branch, read from its lower end. -/
theorem Focus.branch_rankWalk (f : Focus) : f.plug.Branch f.rankWalk.visited.reverse := by
  rw [rankWalk, Walk.visit, visited_rankAboveWalk, List.reverse_cons]
  exact (Tree.Branch.left (.stop f.left)).plugAll f.above

end LiveTable
