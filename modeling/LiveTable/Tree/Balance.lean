import LiveTable.Tree.Basic

/-!
# Balancing

Two trees and a row between them are joined by `balance`. Where the heights
differ by more than one a rotation lifts the higher side; if that side leans
inward it is first rotated outward, and such a double rotation counts as two. The
rows and their order are those of `make` (`toList_balance`).
-/

namespace LiveTable

/-- A tree that was put together anew, and the rotations it took. -/
structure Rebuilt where
  tree : Tree
  rotations : Nat
  deriving DecidableEq

namespace Tree

def rotateRight : Tree → Tree
  | .node (.node a x b) y c => make a x.toEntry (make b y.toEntry c)
  | t => t

def rotateLeft : Tree → Tree
  | .node a x (.node b y c) => make (make a x.toEntry b) y.toEntry c
  | t => t

def leansLeft : Tree → Bool
  | nil => false
  | node l _ r => r.height < l.height

def leansRight : Tree → Bool
  | nil => false
  | node l _ r => l.height < r.height

/-- Joins two trees around a row. -/
def balance (l : Tree) (e : Entry) (r : Tree) : Rebuilt :=
  if r.height + 1 < l.height then
    if l.leansRight then ⟨rotateRight (make (rotateLeft l) e r), 2⟩
    else ⟨rotateRight (make l e r), 1⟩
  else if l.height + 1 < r.height then
    if r.leansLeft then ⟨rotateLeft (make l e (rotateRight r)), 2⟩
    else ⟨rotateLeft (make l e r), 1⟩
  else ⟨make l e r, 0⟩

/-! ## Rows -/

@[simp] theorem toList_rotateRight (t : Tree) : t.rotateRight.toList = t.toList := by
  unfold rotateRight
  split <;> simp

@[simp] theorem toList_rotateLeft (t : Tree) : t.rotateLeft.toList = t.toList := by
  unfold rotateLeft
  split <;> simp

@[simp] theorem toList_balance (l : Tree) (e : Entry) (r : Tree) :
    (balance l e r).tree.toList = l.toList ++ e :: r.toList := by
  unfold balance
  repeat' split
  all_goals simp

end Tree

end LiveTable
