import LiveTable.Proofs.Table.Reachable
import LiveTable.Proofs.Tree.Height
import Mathlib

/-!
# Tables stay shallow

Whatever the order in which rows come, move and go, and whatever the collation makes of their sort
keys, the height of the tree is bounded by the number of rows: a table whose tree has height `h` has
at least as many rows as the Fibonacci number of `h + 2`, less one. Where a row is put, where a
search, a rank or a selection goes is found on one branch, so that none of these visits more cells
than the tree is high (`staysShallow_of_reachable`).
-/

namespace LiveTable.Table

variable {t : Table}

/-! ## Walks -/

def descent (t : Table) (columns : SortKey) : Walk (List Crumb) :=
  t.tree.gapWalk (t.comesBefore columns) []

def searchWalk (t : Table) (probe : SortKey) : Walk (Option Focus) :=
  t.tree.boundWalk (fun e => !(t.compare e.columns probe).isLT) [] none

def selectWalk (t : Table) (rank : Nat) : Walk (Option Focus) := t.tree.selectWalk rank []

theorem length_descent_le (t : Table) (columns : SortKey) :
    (t.descent columns).visited.length ≤ t.tree.depth :=
  (Tree.branch_gapWalk ..).length_le

theorem tree_attach (t : Table) (key : Key) (columns : SortKey) (hidden : Bool) :
    (t.attach key columns hidden).2.tree =
      (Tree.plant (t.descent columns).result (t.newEntry key columns hidden)).tree := by
  rw [descent, Tree.result_gapWalk]
  rfl

theorem Sound.depth_detach_le (h : t.Sound) {f : Focus} (hf : f.plug = t.tree) :
    (t.detach f).tree.depth ≤ t.tree.depth :=
  hf ▸ Focus.depth_remove_le (hf.symm ▸ h.tree)

/-- A row is put at the end of a descent in the tree as it is, or without the row's old place. -/
theorem Sound.perform_puts_descent (h : t.Sound) {c : Command} (hc : c.puts = true) :
    (t.perform c).2.tree = t.tree ∨
      ∃ key columns hidden u, t.brought? c = some (key, columns, hidden) ∧
        (u = t ∨ ∃ f, t.focus? key = some f ∧ u = t.detach f) ∧
        (t.perform c).2.tree =
          (Tree.plant (u.descent columns).result (u.newEntry key columns hidden)).tree ∧
        (u.descent columns).visited.length ≤ t.tree.depth := by
  rcases t.perform_puts hc with ⟨-, he | he⟩ | ⟨key, columns, hidden, hb, -, -, he⟩ |
    ⟨f, key, columns, hidden, hb, -, hf, he⟩
  · exact .inl (congrArg Table.tree he)
  · exact .inl ((congrArg Table.tree he).trans rfl)
  · exact .inr ⟨key, columns, hidden, t, hb, .inl rfl,
      (congrArg Table.tree he).trans (t.tree_attach ..), t.length_descent_le columns⟩
  · refine .inr ⟨key, columns, hidden, t.detach f, hb, .inr ⟨f, hf, rfl⟩,
      (congrArg Table.tree he).trans ((t.detach f).tree_attach ..), ?_⟩
    exact ((t.detach f).length_descent_le columns).trans (h.depth_detach_le (focus?_some hf))

/-! ## Heights -/

/-- The tree of a table is not high for its rows, and no walk in it visits more cells than it is
high. -/
structure StaysShallow (t : Table) : Prop where
  stored : t.tree.height = t.tree.depth
  rows : t.size = t.entries.length
  fib_le : Nat.fib (t.tree.depth + 2) ≤ t.size + 1
  /-- Putting a row, new or there already, takes one descent at most. -/
  insertion (c : Command) : c.puts = true →
    (t.perform c).2.tree = t.tree ∨
      ∃ key columns hidden u, t.brought? c = some (key, columns, hidden) ∧
        (u = t ∨ ∃ f, t.focus? key = some f ∧ u = t.detach f) ∧
        (t.perform c).2.tree =
          (Tree.plant (u.descent columns).result (u.newEntry key columns hidden)).tree ∧
        (u.descent columns).visited.length ≤ t.tree.depth
  search (probe : SortKey) : (t.searchWalk probe).result = t.bound probe ∧
    (t.searchWalk probe).visited.length ≤ t.tree.depth
  rank (key : Key) (f : Focus) : t.focus? key = some f →
    f.rankWalk.result = t.rankOf (.row key) ∧ f.rankWalk.visited.length ≤ t.tree.depth
  selection (rank : Nat) : .orEnd (t.selectWalk rank).result = t.select rank ∧
    (t.selectWalk rank).visited.length ≤ t.tree.depth

/-- The height of a table grows with the logarithm of the number of its rows, and it bounds every
walk. -/
theorem staysShallow_of_reachable (h : t.Reachable) : t.StaysShallow := by
  have hs := h.sound
  refine ⟨hs.tree.counted.height_eq, hs.size_eq, ?_, fun c hc => hs.perform_puts_descent hc,
    fun probe => ⟨?_, (Tree.branch_boundWalk ..).length_le⟩, fun key f hf => ⟨?_, ?_⟩,
    fun rank => ⟨?_, (Tree.branch_selectWalk ..).length_le⟩⟩
  · rw [hs.size_eq]
    exact hs.tree.balanced.fib_le
  · exact Tree.result_boundWalk _ t.tree []
  · rw [f.result_rankWalk, rankOf, hf]
    rfl
  · have hbranch := f.branch_rankWalk.length_le
    rwa [focus?_some hf, List.length_reverse] at hbranch
  · rw [selectWalk, Tree.result_selectWalk]
    rfl

/-- As few rows as a tree of height four can have. One of them is hidden, another one has been
brought to a new place, and an eighth one is gone. -/
def sparsest : Table :=
  (empty {} .bytewise).run [.put ⟨1, 5⟩ [.binary [5]] false, .put ⟨1, 3⟩ [.binary [3]] false,
    .put ⟨1, 7⟩ [.binary [7]] true, .put ⟨1, 2⟩ [.binary [2]] false,
    .put ⟨1, 4⟩ [.binary [4]] false, .put ⟨1, 6⟩ [.binary [8]] false,
    .put ⟨1, 1⟩ [.binary [1]] false, .put ⟨1, 9⟩ [.binary [9]] false,
    .setColumn ⟨1, 6⟩ 0 (.binary [6]), .erase ⟨1, 9⟩]

theorem staysShallow_sparsest :
    sparsest.Reachable ∧ sparsest.tree.depth = 4 ∧ sparsest.size = 7 ∧
      Nat.fib (4 + 2) ≤ 7 + 1 ∧ (sparsest.searchWalk [.binary [0]]).visited.length = 4 ∧
      (sparsest.searchWalk [.binary [0]]).result = sparsest.bound [.binary [0]] := by
  have hreachable : sparsest.Reachable := ⟨{}, .bytewise, _, rfl, rfl⟩
  have hdepth : sparsest.tree.depth = 4 := by cbv
  have hsize : sparsest.size = 7 := by cbv
  have hvisited : (sparsest.searchWalk [.binary [0]]).visited.length = 4 := by cbv
  have hshallow := staysShallow_of_reachable hreachable
  have hfib := hshallow.fib_le
  rw [hdepth, hsize] at hfib
  exact ⟨hreachable, hdepth, hsize, hfib, hvisited, (hshallow.search _).1⟩

end LiveTable.Table
