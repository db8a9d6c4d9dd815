import LiveTable.Proofs.Table.Reachable
import LiveTable.Proofs.Tally

/-!
# The tree grows by one row

On the way up from a new row every cell is balanced anew, but one of them at most has anything to
do. Below it the subtrees have grown by one and lean to the side where they have (`Grown`); the
rotation there brings the subtree back to the height that it had before the row came, so that no
cell above it finds anything changed (`turns_of_level`). A new row therefore costs no rotation, a
single one or one double rotation, however many cells lie above it (`rebalancesOnce_of_reachable`).
-/

namespace LiveTable

namespace Tree

/-- Not both sides are equally high, unless there is a single row. -/
def Leaning : Tree → Prop
  | nil => False
  | node l _ r => l.depth = r.depth → l.depth = 0

/-- What has become of a tree that a row was put into: its height is the same, or it is by one
higher and leans to one side. -/
structure Grown (t u : Tree) : Prop where
  sound : u.Sound
  depth : u.depth = t.depth ∨ u.depth = t.depth + 1 ∧ u.Leaning

theorem grown_leaf (e : Entry) : Grown nil (make nil e nil) :=
  ⟨sound_nil.make sound_nil (.refl nil) e, .inr ⟨rfl, fun _ => rfl⟩⟩

/-! ## One cell -/

/-- A left side that leans and is higher by two is lifted by a single or a double rotation, and the
whole is then as high as this side was. -/
theorem depth_balance_of_left {l r : Tree} (hl : l.Sound) (hr : r.Sound) (hlean : l.Leaning)
    (e : Entry) (h : l.depth = r.depth + 2) :
    ((balance l e r).rotations = 1 ∨ (balance l e r).rotations = 2) ∧
      (balance l e r).tree.depth = l.depth := by
  rcases balance_of_left hl hr e h with ⟨a, x, b, y, c, rfl, hin, he⟩ | ⟨a, x, b, rfl, hout, he⟩
  · have hab := hl.near
    have hbc := hl.right.near
    rw [he]
    refine ⟨.inr rfl, ?_⟩
    simp only [Near, depth, depth_make] at hab hbc h hin ⊢
    omega
  · have hab := hl.near
    rw [he]
    refine ⟨.inl rfl, ?_⟩
    simp only [Leaning, Near, depth, depth_make] at hlean hab h ⊢
    omega

theorem depth_balance_of_right {l r : Tree} (hl : l.Sound) (hr : r.Sound) (hlean : r.Leaning)
    (e : Entry) (h : r.depth = l.depth + 2) :
    ((balance l e r).rotations = 1 ∨ (balance l e r).rotations = 2) ∧
      (balance l e r).tree.depth = r.depth := by
  rcases balance_of_right hl hr e h with ⟨a, x, b, y, c, rfl, hin, he⟩ | ⟨b, y, c, rfl, hout, he⟩
  · have hbc := hr.near
    have hab := hr.left.near
    rw [he]
    refine ⟨.inr rfl, ?_⟩
    simp only [Near, depth, depth_make] at hab hbc h hin ⊢
    omega
  · have hbc := hr.near
    rw [he]
    refine ⟨.inl rfl, ?_⟩
    simp only [Leaning, Near, depth, depth_make] at hlean hbc h ⊢
    omega

end Tree

open LiveTable.Tree

namespace Crumb

variable {c : Crumb} {t u : Tree}

theorem depth_plug (c : Crumb) (t : Tree) :
    (c.plug t).depth = 1 + max t.depth c.sibling.depth := by
  obtain ⟨side, cell, sibling⟩ := c
  cases side with
  | left => rfl
  | right => exact congrArg (1 + ·) (Nat.max_comm ..)

theorem sound_sibling (h : (c.plug t).Sound) : c.sibling.Sound ∧ t.Near c.sibling := by
  obtain ⟨side, cell, sibling⟩ := c
  cases side with
  | left => exact ⟨h.right, h.near⟩
  | right => exact ⟨h.left, h.near.symm⟩

theorem balance_of_near (hs : c.sibling.Sound) (hu : u.Sound) (hn : u.Near c.sibling) :
    (c.balance u).rotations = 0 ∧ (c.balance u).tree.Sound ∧
      (c.balance u).tree.depth = 1 + max u.depth c.sibling.depth ∧
      (u.depth ≠ c.sibling.depth → (c.balance u).tree.Leaning) := by
  obtain ⟨side, cell, sibling⟩ := c
  cases side with
  | left =>
    rw [balance, Tree.balance_of_near hu hs hn]
    exact ⟨rfl, hu.make hs hn _, rfl, fun hne heq => absurd heq hne⟩
  | right =>
    rw [balance, Tree.balance_of_near hs hu hn.symm]
    exact ⟨rfl, hs.make hu hn.symm _, congrArg (1 + ·) (Nat.max_comm ..),
      fun hne heq => absurd heq.symm hne⟩

/-- A side that leans and is higher than the sibling by two is lifted. -/
theorem balance_of_high (hs : c.sibling.Sound) (hu : u.Sound) (hlean : u.Leaning)
    (h : u.depth = c.sibling.depth + 2) :
    ((c.balance u).rotations = 1 ∨ (c.balance u).rotations = 2) ∧ (c.balance u).tree.Sound ∧
      (c.balance u).tree.depth = u.depth := by
  obtain ⟨side, cell, sibling⟩ := c
  cases side with
  | left =>
    obtain ⟨hrot, hdepth⟩ := depth_balance_of_left hu hs hlean cell.toEntry h
    exact ⟨hrot, (joined_balance_of_left hu hs cell.toEntry h).sound, hdepth⟩
  | right =>
    obtain ⟨hrot, hdepth⟩ := depth_balance_of_right hs hu hlean cell.toEntry h
    exact ⟨hrot, (joined_balance_of_right hs hu cell.toEntry h).sound, hdepth⟩

theorem balance_of_level (h : (c.plug t).Sound) (hu : u.Sound) (hd : u.depth = t.depth) :
    (c.balance u).rotations = 0 ∧ (c.balance u).tree.Sound ∧
      (c.balance u).tree.depth = (c.plug t).depth := by
  obtain ⟨hs, hn⟩ := sound_sibling h
  obtain ⟨h0, hb, hdepth, -⟩ := balance_of_near hs hu (show u.Near c.sibling by omega)
  exact ⟨h0, hb, by rw [hdepth, depth_plug, hd]⟩

/-- Where a side has grown, either there is nothing to do and the whole has grown, or the side is
lifted and the whole is as high as before. -/
theorem balance_of_grown (h : (c.plug t).Sound) (hg : Grown t u) :
    (c.balance u).rotations = 0 ∧ Grown (c.plug t) (c.balance u).tree ∨
      ((c.balance u).rotations = 1 ∨ (c.balance u).rotations = 2) ∧ (c.balance u).tree.Sound ∧
        (c.balance u).tree.depth = (c.plug t).depth := by
  obtain ⟨hs, hn⟩ := sound_sibling h
  have hplug := c.depth_plug t
  rcases hg.depth with hd | ⟨hd, hlean⟩
  · obtain ⟨h0, hb, hdepth⟩ := balance_of_level h hg.sound hd
    exact .inl ⟨h0, hb, .inl hdepth⟩
  by_cases hnu : u.Near c.sibling
  · obtain ⟨h0, hb, hdepth, hlean'⟩ := balance_of_near hs hg.sound hnu
    refine .inl ⟨h0, hb, ?_⟩
    -- a side that was the lower one has caught up, any other one stands out now
    by_cases heq : u.depth = c.sibling.depth
    · exact .inl (by omega)
    · exact .inr ⟨by omega, hlean' heq⟩
  · obtain ⟨hturn, hb, hdepth⟩ := balance_of_high hs hg.sound hlean (by omega)
    exact .inr ⟨hturn, hb, by omega⟩

end Crumb

/-! ## Ways up -/

/-- The rotations at each of the cells above a subtree that was changed, the nearest one first. -/
def turns : List Crumb → Tree → List Nat
  | [], _ => []
  | c :: above, t => (c.balance t).rotations :: turns above (c.balance t).tree

theorem sum_turns (above : List Crumb) (t : Tree) :
    (turns above t).sum = (climb above t).rotations := by
  induction above generalizing t with
  | nil => rfl
  | cons c cs ih => rw [turns, List.sum_cons, ih, climb]

theorem turns_of_level {above : List Crumb} {t u : Tree} (h : (plugAll above t).Sound)
    (hu : u.Sound) (hd : u.depth = t.depth) : turns above u = List.replicate above.length 0 := by
  induction above generalizing t u with
  | nil => rfl
  | cons c cs ih =>
    obtain ⟨h0, hs, hdepth⟩ := c.balance_of_level (sound_of_plugAll cs h) hu hd
    rw [turns, h0, ih (t := c.plug t) h hs hdepth]
    rfl

/-- Above a subtree that has grown one cell turns at most, once or, in a double rotation, twice. -/
theorem turns_of_grown {above : List Crumb} {t u : Tree} (h : (plugAll above t).Sound)
    (hg : Grown t u) :
    ∃ i n, n ≤ 2 ∧ turns above u = (List.replicate above.length 0).set i n := by
  induction above generalizing t u with
  | nil => exact ⟨0, 0, by decide, rfl⟩
  | cons c cs ih =>
    rcases c.balance_of_grown (sound_of_plugAll cs h) hg with ⟨h0, hg'⟩ | ⟨hturn, hs, hdepth⟩
    · obtain ⟨i, n, hn, hrest⟩ := ih (t := c.plug t) h hg'
      exact ⟨i + 1, n, hn, by rw [turns, h0, hrest]; rfl⟩
    · -- the cell turns, and those above it find it as high as before
      refine ⟨0, (c.balance u).rotations, by omega, ?_⟩
      rw [turns, turns_of_level (t := c.plug t) h hs hdepth]
      rfl

theorem sum_set_replicate_le (k i n : Nat) : ((List.replicate k 0).set i n).sum ≤ n := by
  induction k generalizing i with
  | zero => exact Nat.zero_le n
  | succ k ih =>
    cases i with
    | zero => simp [List.replicate_succ]
    | succ i => simpa [List.replicate_succ] using ih i

/-! ## In a table -/

namespace Table

variable {t : Table} {key : Key}

/-- The cells above the place of a new row, from the nearest one up to the root. -/
def ancestors (t : Table) (columns : SortKey) : List Crumb :=
  t.tree.gap (t.comesBefore columns) []

/-- The rotations at each cell on the way up from a new row. -/
def turnsAbove (t : Table) (key : Key) (columns : SortKey) (hidden : Bool) : List Nat :=
  turns (t.ancestors columns) (.make .nil (t.newEntry key columns hidden) .nil)

theorem plugAll_ancestors (t : Table) (columns : SortKey) :
    plugAll (t.ancestors columns) .nil = t.tree := Tree.plugAll_gap ..

theorem Sound.turnsAbove_eq (h : t.Sound) (key : Key) (columns : SortKey) (hidden : Bool) :
    ∃ i n, n ≤ 2 ∧ t.turnsAbove key columns hidden =
      (List.replicate (t.ancestors columns).length 0).set i n :=
  turns_of_grown ((t.plugAll_ancestors columns).symm ▸ h.tree) (Tree.grown_leaf _)

theorem rotations_attach (hc : t.tally.enabled = true) (key : Key) (columns : SortKey)
    (hidden : Bool) :
    ((t.attach key columns hidden).2.note .added).tally.rotations =
      t.tally.rotations + .ofNat (t.turnsAbove key columns hidden).sum := by
  rw [turnsAbove, sum_turns]
  exact Tally.value_noteAll hc [.rotated _, .added] .rotations

/-- What putting a row under a key that no row has costs in rotations. -/
structure RebalancesOnce (t : Table) (key : Key) (columns : SortKey) (hidden : Bool) : Prop where
  /-- The reserved key is refused, and nothing turns. -/
  refused : key = .reserved →
    t.perform (.put key columns hidden) = (.error (.reservedKey key), t)
  added : key ≠ .reserved → ∃ predecessor,
    (t.perform (.put key columns hidden)).1 = .ok (.placed ⟨.added, predecessor⟩)
  /-- The cells above the row are all those from its place up to the root. -/
  path : plugAll (t.ancestors columns) .nil = t.tree
  /-- The tally counts what turns at all the cells above the row. -/
  counted : key ≠ .reserved → (t.perform (.put key columns hidden)).2.tally.rotations =
    t.tally.rotations + .ofNat (t.turnsAbove key columns hidden).sum
  /-- At all of these cells but one nothing turns, and at that one no more than twice. -/
  once : ∃ i n, n ≤ 2 ∧ t.turnsAbove key columns hidden =
    (List.replicate (t.ancestors columns).length 0).set i n
  grows : ∃ n ≤ 2, (t.perform (.put key columns hidden)).2.tally.rotations =
    t.tally.rotations + .ofNat n

/-- A new row is balanced by a single or a double rotation of one cell, if at all. -/
theorem rebalancesOnce_of_reachable (h : t.Reachable) (hc : t.tally.enabled = true)
    (hk : ¬ HasKey t.entries key) (columns : SortKey) (hidden : Bool) :
    t.RebalancesOnce key columns hidden := by
  have honce := h.sound.turnsAbove_eq key columns hidden
  have hcost : (t.turnsAbove key columns hidden).sum ≤ 2 := by
    obtain ⟨i, n, hn, hturns⟩ := honce
    rw [hturns]
    exact (sum_set_replicate_le ..).trans hn
  have hpath := t.plugAll_ancestors columns
  have hrotations := rotations_attach hc key columns hidden
  rcases t.put_cases key columns hidden with ⟨hr, he⟩ | ⟨hr, -, he⟩ | ⟨f, -, hf, -⟩ |
    ⟨f, -, hf, -⟩
  · have hput := perform_of_error (c := .put key columns hidden) (congrArg (Except.map _) he)
    refine ⟨fun _ => hput, fun hne => absurd hr hne, hpath, fun hne => absurd hr hne,
      honce, 0, by decide, ?_⟩
    rw [hput]
    exact (UInt64.add_zero _).symm
  · have hput := perform_of_ok (c := .put key columns hidden) (congrArg (Except.map _) he)
    rw [← congrArg (·.2.tally.rotations) hput] at hrotations
    exact ⟨fun hk => absurd hk hr, fun _ => ⟨_, congrArg (·.1) hput⟩, hpath, fun _ => hrotations,
      honce, _, hcost, hrotations⟩
  all_goals
    cases (h.sound.focus?_eq_none_iff.2 hk).symm.trans hf

/-- Four rows; a fifth one belongs between the two on the left. -/
def leftHeavy : Table :=
  (empty {} .bytewise).run [.put ⟨1, 1⟩ [.binary [7]] false, .put ⟨1, 2⟩ [.binary [5]] false,
    .put ⟨1, 3⟩ [.binary [9]] true, .put ⟨1, 4⟩ [.binary [1]] false]

/-- Of the three cells above the fifth row the middle one turns, in a double rotation. -/
theorem rebalancesOnce_leftHeavy :
    leftHeavy.Reachable ∧ leftHeavy.tally.enabled = true ∧ ¬ HasKey leftHeavy.entries ⟨1, 5⟩ ∧
      leftHeavy.turnsAbove ⟨1, 5⟩ [.binary [3]] false = [0, 2, 0] ∧
      (leftHeavy.perform (.put ⟨1, 5⟩ [.binary [3]] false)).2.tally.rotations =
        leftHeavy.tally.rotations + 2 := by
  have hreachable : leftHeavy.Reachable := ⟨{}, .bytewise, _, rfl, rfl⟩
  have hrows : leftHeavy.entries = [⟨⟨⟨1, 4⟩, [.binary [1]], 3⟩, false⟩,
      ⟨⟨⟨1, 2⟩, [.binary [5]], 1⟩, false⟩, ⟨⟨⟨1, 1⟩, [.binary [7]], 0⟩, false⟩,
      ⟨⟨⟨1, 3⟩, [.binary [9]], 2⟩, true⟩] := by cbv
  have htally : leftHeavy.tally.enabled = true := by cbv
  have hnew : ¬ HasKey leftHeavy.entries ⟨1, 5⟩ := by
    rw [hrows]
    simp [HasKey]
  have hturns : leftHeavy.turnsAbove ⟨1, 5⟩ [.binary [3]] false = [0, 2, 0] := by cbv
  have hcounted := (rebalancesOnce_of_reachable hreachable htally hnew [.binary [3]] false).counted
    (by decide)
  rw [hturns] at hcounted
  exact ⟨hreachable, htally, hnew, hturns, hcounted⟩

end Table

end LiveTable
