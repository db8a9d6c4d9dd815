import LiveTable.Proofs.Tree.Sound
import LiveTable.Tree.Links
import Mathlib.Data.List.Nodup

/-!
# Balancing linked nodes

What balancing does to links agrees with what it does to trees. `Laid` says that a tree lies in
the slots of a list, in order: each of its cells in a node that names its parent, its side and its
two children. A layout depends on its own slots only (`Laid.congr`), and may be hung elsewhere
through the links of its root (`Laid.hang`).

The links that put a child in the place of its parent keep the slots in their order
(`Pivot.laid`), and two recounts from below make the numbers of the new tree (`Hung.lift`).
Around the slots nothing changes but the child link of the parent (`Relinked`), so that a change
below a node is a change of that node, too (`Hung.focus`), and the second rotation may follow the
first. Whichever rotations it takes, balancing a node whose sides differ in height by two at most
makes what `Tree.balance` makes, with the rows in their slots (`Hung.rebalance`).
-/

namespace LiveTable

namespace Node

variable {n : Node} {side s : Side} {slot : Option Nat} {parent : Nat} {c : Cell}

@[simp] theorem child_withChild : (n.withChild side slot).child side = slot := by
  cases side <;> rfl

@[simp] theorem child_withChild_other :
    (n.withChild side slot).child side.other = n.child side.other := by
  cases side <;> rfl

@[simp] theorem child_other_withChild :
    (n.withChild side.other slot).child side = n.child side := by
  cases side <;> rfl

@[simp] theorem child_hang : (n.hang parent s).child side = n.child side := by
  cases side <;> rfl

@[simp] theorem withChild_withChild {slot' : Option Nat} :
    (n.withChild side slot).withChild side slot' = n.withChild side slot' := by
  cases side <;> rfl

theorem withChild_child (h : n.child side = slot) : n.withChild side slot = n := by
  subst h
  cases side <;> rfl

/-- The node has a row in a cell of the tree, and hangs on a side of its parent. -/
structure Holds (n : Node) (c : Cell) (parent : Nat) (s : Side) : Prop where
  cell : n.cell = c
  ground : n.ground = false
  parent : n.parent = some parent
  side : n.side = s

theorem Holds.withChild (h : n.Holds c parent s) (side : Side) (slot : Option Nat) :
    (n.withChild side slot).Holds c parent s := by
  cases side <;> exact ⟨h.cell, h.ground, h.parent, h.side⟩

theorem Holds.hang (h : n.Holds c parent s) (parent' : Nat) (s' : Side) :
    (n.hang parent' s').Holds c parent' s' := ⟨h.cell, h.ground, rfl, rfl⟩

theorem Holds.store (h : n.Holds c parent s) (visible height : Nat) :
    (n.store visible height).Holds { c with visible := visible, height := height } parent s :=
  ⟨h.cell ▸ rfl, h.ground, h.parent, h.side⟩

end Node

/-! ## Layouts -/

/-- The slots of a subtree in order, where those on one side of its root are `near`. -/
def Side.weave (side : Side) (near : List Nat) (slot : Nat) (far : List Nat) : List Nat :=
  match side with
  | .left => near ++ slot :: far
  | .right => far ++ slot :: near

theorem Side.mem_weave {side : Side} {near far : List Nat} {slot i : Nat} :
    i ∈ side.weave near slot far ↔ i ∈ near ∨ i = slot ∨ i ∈ far := by
  cases side <;> simp only [weave, List.mem_append, List.mem_cons]
  tauto

theorem Side.nodup_weave {side : Side} {near far : List Nat} {slot : Nat} :
    (side.weave near slot far).Nodup ↔
      near.Nodup ∧ far.Nodup ∧ slot ∉ near ∧ slot ∉ far ∧ near.Disjoint far := by
  cases side <;> simp [weave, List.nodup_append', List.disjoint_comm] <;> tauto

theorem Side.weave_weave (side : Side) (as bs cs : List Nat) (top pivot : Nat) :
    side.weave (side.weave as top bs) pivot cs = side.weave as top (side.weave bs pivot cs) := by
  cases side <;> simp [weave]

/-- Seen from its other side a new cell is one like any other. -/
theorem Crumb.exists_join_other (side : Side) (c : Cell) (t u : Tree) :
    ∃ c' : Cell, c'.toEntry = c.toEntry ∧
      join ⟨side.other, c, u⟩ t = plug ⟨side, c', t⟩ u := by
  cases side <;> refine ⟨_, ?_, rfl⟩ <;> rfl

namespace Nodes

/-- A tree lies in the given slots, in order, and hangs on a side of a parent. -/
inductive Laid (g : Nodes) : Nat → Side → Option Nat → Tree → List Nat → Prop where
  | nil (parent : Nat) (s : Side) : Laid g parent s none .nil []
  | node {parent slot : Nat} {s : Side} {n : Node} {l r : Tree} {c : Cell} {ls rs : List Nat}
    (get : g slot = some n) (holds : n.Holds c parent s)
    (left : Laid g slot .left n.left l ls) (right : Laid g slot .right n.right r rs) :
    Laid g parent s (some slot) (.node l c r) (ls ++ slot :: rs)

section

variable {g g' : Nodes} {parent slot : Nat} {s : Side} {o : Option Nat} {t : Tree}
  {slots near far : List Nat} {crumb : Crumb} {n : Node}

theorem Laid.plug (crumb : Crumb) (get : g slot = some n) (holds : n.Holds crumb.cell parent s)
    (hnear : g.Laid slot crumb.side (n.child crumb.side) t near)
    (hfar : g.Laid slot crumb.side.other (n.child crumb.side.other) crumb.sibling far) :
    g.Laid parent s (some slot) (crumb.plug t) (crumb.side.weave near slot far) := by
  obtain ⟨side, cell, sibling⟩ := crumb
  cases side with
  | left => exact .node get holds hnear hfar
  | right => exact .node get holds hfar hnear

theorem Laid.exists_of_plug (h : g.Laid parent s o (crumb.plug t) slots) :
    ∃ slot n near far, o = some slot ∧ slots = crumb.side.weave near slot far ∧
      g slot = some n ∧ n.Holds crumb.cell parent s ∧
      g.Laid slot crumb.side (n.child crumb.side) t near ∧
      g.Laid slot crumb.side.other (n.child crumb.side.other) crumb.sibling far := by
  obtain ⟨side, cell, sibling⟩ := crumb
  cases side with
  | left =>
    obtain _ | ⟨get, holds, hnear, hfar⟩ := h
    exact ⟨_, _, _, _, rfl, rfl, get, holds, hnear, hfar⟩
  | right =>
    obtain _ | ⟨get, holds, hfar, hnear⟩ := h
    exact ⟨_, _, _, _, rfl, rfl, get, holds, hnear, hfar⟩

theorem Laid.mem (h : g.Laid parent s o t slots) (ho : o = some slot) : slot ∈ slots := by
  subst ho
  cases h
  simp

theorem Laid.live (h : g.Laid parent s o t slots) {i : Nat} (hi : i ∈ slots) :
    (g i).isSome := by
  induction h with
  | nil => cases hi
  | node get holds left right ihl ihr =>
    rcases List.mem_append.1 hi with hi | hi
    · exact ihl hi
    rcases List.mem_cons.1 hi with rfl | hi
    · simp [get]
    · exact ihr hi

/-- A layout depends on its own slots only. -/
theorem Laid.congr (h : g.Laid parent s o t slots) (hg : ∀ i ∈ slots, g' i = g i) :
    g'.Laid parent s o t slots := by
  induction h with
  | nil => exact .nil _ _
  | node get holds left right ihl ihr =>
    refine .node ((hg _ (by simp)).trans get) holds (ihl fun i hi => hg i ?_)
      (ihr fun i hi => hg i ?_)
    · exact List.mem_append_left _ hi
    · exact List.mem_append_right _ (List.mem_cons_of_mem _ hi)

theorem Laid.hang (h : g.Laid parent s o t slots) (hn : slots.Nodup) {parent' : Nat} {s' : Side}
    (hg : ∀ i ∈ slots, g' i = if o = some i then (g i).map (·.hang parent' s') else g i) :
    g'.Laid parent' s' o t slots := by
  cases h with
  | nil => exact .nil _ _
  | @node _ slot _ n l r c ls rs get holds left right =>
    rw [List.nodup_middle, List.nodup_cons, List.mem_append, not_or] at hn
    have hroot := hg slot (by simp)
    rw [if_pos rfl, get] at hroot
    refine .node hroot (holds.hang _ _) (left.congr fun i hi => ?_) (right.congr fun i hi => ?_)
    · have hne : slot ≠ i := fun he => hn.1.1 (he ▸ hi)
      rw [hg i (List.mem_append_left _ hi), if_neg (by simpa using hne)]
    · have hne : slot ≠ i := fun he => hn.1.2 (he ▸ hi)
      rw [hg i (List.mem_append_right _ (List.mem_cons_of_mem _ hi)), if_neg (by simpa using hne)]

/-! ## Stored numbers -/

theorem Laid.heightOf (h : g.Laid parent s o t slots) : g.heightOf o = some t.height := by
  cases h with
  | nil => rfl
  | node get holds => simp [Nodes.heightOf, get, Tree.height, holds.cell]

theorem Laid.visibleOf (h : g.Laid parent s o t slots) : g.visibleOf o = some t.visible := by
  cases h with
  | nil => rfl
  | node get holds => simp [Nodes.visibleOf, get, Tree.visible, holds.cell]

theorem Laid.recount {l r : Tree} {c : Cell}
    (h : g.Laid parent s (some slot) (.node l c r) slots) (hn : slots.Nodup) :
    ∃ g', g.recount slot = some g' ∧ g'.Laid parent s (some slot) (.make l c.toEntry r) slots ∧
      ∀ i, i ≠ slot → g' i = g i := by
  obtain _ | @⟨_, _, _, n, _, _, _, ls, rs, get, holds, left, right⟩ := h
  rw [List.nodup_middle, List.nodup_cons, List.mem_append, not_or] at hn
  have hstored : g.recount slot = some fun i => if i = slot then
      some (n.store (c.weight + (l.visible + r.visible)) (1 + max l.height r.height))
      else g i := by
    simp [Nodes.recount, modify, get, left.visibleOf, right.visibleOf, left.heightOf,
      right.heightOf, holds.ground, holds.cell]
  have hother (i : Nat) (hi : i ≠ slot) : (if i = slot then
      some (n.store (c.weight + (l.visible + r.visible)) (1 + max l.height r.height))
      else g i) = g i := if_neg hi
  refine ⟨_, hstored, .node (if_pos rfl) (holds.store _ _) ?_ ?_, hother⟩
  · exact left.congr fun i hi => hother i fun he => hn.1.1 (he ▸ hi)
  · exact right.congr fun i hi => hother i fun he => hn.1.2 (he ▸ hi)

theorem Laid.recount_plug (h : g.Laid parent s (some slot) (crumb.plug t) slots)
    (hn : slots.Nodup) :
    ∃ g', g.recount slot = some g' ∧ g'.Laid parent s (some slot) (crumb.join t) slots ∧
      ∀ i, i ≠ slot → g' i = g i := by
  obtain ⟨side, cell, sibling⟩ := crumb
  cases side with
  | left => exact Laid.recount h hn
  | right => exact Laid.recount h hn

theorem Laid.recount_sibling {side : Side} {top pivot : Nat} {m : Node} {x : Cell} {a b : Tree}
    (below : Crumb)
    (h : g.Laid parent s (some top) (Crumb.plug ⟨side, x, below.plug b⟩ a) slots)
    (hnodup : slots.Nodup) (htop : g top = some m) (hchild : m.child side.other = some pivot) :
    ∃ g', g.recount pivot = some g' ∧
      g'.Laid parent s (some top) (Crumb.plug ⟨side, x, below.join b⟩ a) slots ∧
      ∀ i, i ≠ pivot → g' i = g i := by
  obtain ⟨_, _, near, far, hs, rfl, hget, hm, hnear, hfar⟩ := h.exists_of_plug
  cases hs
  cases hget.symm.trans htop
  simp only [hchild] at hfar
  obtain ⟨-, hf, -, htf, hnf⟩ := Side.nodup_weave.1 hnodup
  obtain ⟨g', hg', hlaid, hsame⟩ := hfar.recount_plug hf
  refine ⟨g', hg', ?_, hsame⟩
  refine Laid.plug ⟨side, x, below.join b⟩ ?_ hm (hnear.congr fun i hi => ?_) ?_
  · rw [hsame top fun he => htf (he ▸ hfar.mem rfl), htop]
  · exact hsame i fun he => hnf hi (he ▸ hfar.mem rfl)
  · rw [hchild]
    exact hlaid

/-! ## Links -/

/-- The nodes after a node and a child were linked. -/
def linked (g : Nodes) (parent : Nat) (side : Side) (child : Option Nat) : Nodes := fun i =>
  if i = parent then (g i).map (·.withChild side child)
  else if child = some i then (g i).map (·.hang parent side)
  else g i

theorem link_eq {side : Side} {child : Option Nat} (hp : (g parent).isSome)
    (hc : ∀ i, child = some i → i ≠ parent ∧ (g i).isSome) :
    g.link parent side child = some (g.linked parent side child) := by
  obtain ⟨n, hn⟩ := Option.isSome_iff_exists.1 hp
  cases child with
  | none =>
    simp only [link, modify, hn, Option.map_some, Option.bind_eq_bind, Option.bind_some]
    refine congrArg some (funext fun i => ?_)
    by_cases hi : i = parent
    · simp [linked, hi, hn]
    · simp [linked, hi]
  | some slot =>
    obtain ⟨hne, hs⟩ := hc slot rfl
    obtain ⟨m, hm⟩ := Option.isSome_iff_exists.1 hs
    simp only [link, modify, hn, Option.map_some, Option.bind_eq_bind, Option.bind_some, hne,
      if_false, hm]
    refine congrArg some (funext fun i => ?_)
    by_cases hi : i = parent
    · simp [linked, hi, hn, hne.symm]
    by_cases his : i = slot
    · simp [linked, his, hne, hm]
    · simp [linked, hi, his, Ne.symm his]

theorem isSome_linked (g : Nodes) (parent : Nat) (side : Side) (child : Option Nat) (i : Nat) :
    (g.linked parent side child i).isSome = (g i).isSome := by
  unfold linked
  split
  · exact Option.isSome_map
  split
  · exact Option.isSome_map
  · rfl

/-- The nodes after the child `top` of `pivot` on a side was put in its place under `parent`. -/
def turned (g : Nodes) (side : Side) (pivot top : Nat) (inner : Option Nat) (parent : Nat)
    (s : Side) : Nodes := fun i =>
  if i = pivot then (g i).map fun n => (n.withChild side inner).hang top side.other
  else if i = top then (g i).map fun n => (n.withChild side.other (some pivot)).hang parent s
  else if i = parent then (g i).map (·.withChild s (some top))
  else if inner = some i then (g i).map (·.hang pivot side)
  else g i

theorem linked_linked_linked {side : Side} {pivot top : Nat} {inner : Option Nat}
    (hpt : pivot ≠ top) (hpp : pivot ≠ parent) (htp : top ≠ parent)
    (hinner : ∀ i, inner = some i → i ≠ pivot ∧ i ≠ top ∧ i ≠ parent) :
    ((g.linked pivot side inner).linked top side.other (some pivot)).linked parent s (some top) =
      g.turned side pivot top inner parent s := by
  funext i
  by_cases hi : i = pivot
  · simp [linked, turned, hi, hpt, hpp, hpt.symm, Option.map_map, Function.comp_def]
  by_cases hit : i = top
  · have hne : inner ≠ some top := fun h => (hinner _ h).2.1 rfl
    simp [linked, turned, hit, hpt.symm, htp, hne, Option.map_map, Function.comp_def]
  by_cases hip : i = parent
  · have hne : inner ≠ some parent := fun h => (hinner _ h).2.2 rfl
    simp [linked, turned, hip, hpp.symm, htp.symm, hne, hpp]
  · simp [linked, turned, hi, hit, hip, Ne.symm hi, Ne.symm hit]

/-! ## A node and its child -/

/-- Nothing has changed outside the slots but the link of the parent. -/
def Relinked (g g' : Nodes) (parent : Nat) (s : Side) (top : Nat) (slots : List Nat) : Prop :=
  ∀ i, i ∉ slots → g' i = if i = parent then (g i).map (·.withChild s (some top)) else g i

/-- A node that hangs under `parent`, its child on a side, and the three subtrees below the two: `a`
on the same side of the child, `c` on the other side of the node, and `b` in between. -/
structure Pivot (g : Nodes) (side : Side) (parent : Nat) (s : Side) (pivot top : Nat) (n m : Node)
    (x y : Cell) (a b c : Tree) (as bs cs : List Nat) : Prop where
  getPivot : g pivot = some n
  getTop : g top = some m
  holdsPivot : n.Holds y parent s
  holdsTop : m.Holds x pivot side
  outer : g.Laid top side (m.child side) a as
  inner : g.Laid top side.other (m.child side.other) b bs
  far : g.Laid pivot side.other (n.child side.other) c cs
  nodup : (side.weave as top (side.weave bs pivot cs)).Nodup
  apart : parent ∉ side.weave as top (side.weave bs pivot cs)

section

variable {side : Side} {pivot top : Nat} {m : Node} {x y : Cell} {a b c : Tree}
  {as bs cs : List Nat}

theorem Pivot.ne (h : g.Pivot side parent s pivot top n m x y a b c as bs cs) :
    pivot ≠ top ∧ pivot ≠ parent ∧ top ≠ parent := by
  have hnodup := h.nodup
  have hapart := h.apart
  simp only [Side.nodup_weave, Side.mem_weave, not_or] at hnodup hapart
  exact ⟨Ne.symm hnodup.2.2.2.1.2.1, Ne.symm hapart.2.2.2.1, Ne.symm hapart.2.1⟩

theorem Pivot.inner_ne (h : g.Pivot side parent s pivot top n m x y a b c as bs cs) {i : Nat}
    (hi : m.child side.other = some i) : i ≠ pivot ∧ i ≠ top ∧ i ≠ parent := by
  have hib := h.inner.mem hi
  have hnodup := h.nodup
  have hapart := h.apart
  simp only [Side.nodup_weave, Side.mem_weave, not_or] at hnodup hapart
  obtain ⟨-, ⟨-, -, hpb, -⟩, -, ⟨htb, -⟩, -⟩ := hnodup
  exact ⟨fun he => hpb (he ▸ hib), fun he => htb (he ▸ hib), fun he => hapart.2.2.1 (he ▸ hib)⟩

theorem Pivot.links (h : g.Pivot side parent s pivot top n m x y a b c as bs cs)
    (hparent : (g parent).isSome) :
    (do
      let g ← g.link pivot side (m.child side.other)
      let g ← g.link top side.other (some pivot)
      g.link parent s (some top)) =
        some (g.turned side pivot top (m.child side.other) parent s) := by
  obtain ⟨hpt, hpp, htp⟩ := h.ne
  have hfirst : g.link pivot side (m.child side.other) =
      some (g.linked pivot side (m.child side.other)) :=
    link_eq (by simp [h.getPivot]) fun i hi => ⟨(h.inner_ne hi).1, h.inner.live (h.inner.mem hi)⟩
  have hsecond : (g.linked pivot side (m.child side.other)).link top side.other (some pivot) =
      some ((g.linked pivot side (m.child side.other)).linked top side.other (some pivot)) := by
    refine link_eq (by simp [isSome_linked, h.getTop]) fun i hi => ?_
    cases hi
    exact ⟨hpt, by simp [isSome_linked, h.getPivot]⟩
  rw [hfirst, Option.bind_eq_bind, Option.bind_some, hsecond, Option.bind_some,
    ← linked_linked_linked hpt hpp htp fun i => h.inner_ne]
  refine link_eq (by rwa [isSome_linked, isSome_linked]) fun i hi => ?_
  cases hi
  exact ⟨htp, by simp [isSome_linked, h.getTop]⟩

theorem Pivot.turned_of_mem (h : g.Pivot side parent s pivot top n m x y a b c as bs cs) {i : Nat}
    (hi : i ∈ as ∨ i ∈ cs) : g.turned side pivot top (m.child side.other) parent s i = g i := by
  have hnodup := h.nodup
  have hapart := h.apart
  simp only [Side.nodup_weave, Side.mem_weave, not_or] at hnodup hapart
  obtain ⟨-, ⟨-, -, -, hpc, hbc⟩, hta, ⟨-, -, htc⟩, hrest⟩ := hnodup
  obtain ⟨hqa, -, -, -, hqc⟩ := hapart
  have hne : i ≠ pivot ∧ i ≠ top ∧ i ≠ parent ∧ i ∉ bs := by
    rcases hi with hi | hi
    · exact ⟨fun he => hrest hi (Side.mem_weave.2 (.inr (.inl he))), fun he => hta (he ▸ hi),
        fun he => hqa (he ▸ hi), fun hb => hrest hi (Side.mem_weave.2 (.inl hb))⟩
    · exact ⟨fun he => hpc (he ▸ hi), fun he => htc (he ▸ hi), fun he => hqc (he ▸ hi),
        fun hb => hbc hb hi⟩
  have hinner : m.child side.other ≠ some i := fun he => hne.2.2.2 (h.inner.mem he)
  simp [turned, hne.1, hne.2.1, hne.2.2.1, hinner]

/-- The child has the node as its own child then, and the subtree in between has changed sides. -/
theorem Pivot.laid (h : g.Pivot side parent s pivot top n m x y a b c as bs cs) :
    (g.turned side pivot top (m.child side.other) parent s).Laid parent s (some top)
      (Crumb.plug ⟨side, x, Crumb.plug ⟨side, y, c⟩ b⟩ a)
      (side.weave as top (side.weave bs pivot cs)) := by
  obtain ⟨hpt, hpp, htp⟩ := h.ne
  have hnodup := h.nodup
  have hapart := h.apart
  simp only [Side.nodup_weave, Side.mem_weave, not_or] at hnodup hapart
  obtain ⟨-, ⟨hbs, -, hpb, -⟩, -, ⟨htb, -⟩, -⟩ := hnodup
  refine Laid.plug (n := (m.withChild side.other (some pivot)).hang parent s)
    ⟨side, x, Crumb.plug ⟨side, y, c⟩ b⟩ ?_ ((h.holdsTop.withChild _ _).hang _ _) ?_ ?_
  · simp [turned, hpt.symm, h.getTop]
  · rw [Node.child_hang, Node.child_other_withChild]
    exact h.outer.congr fun i hi => h.turned_of_mem (.inl hi)
  · rw [Node.child_hang, Node.child_withChild]
    refine Laid.plug (n := (n.withChild side (m.child side.other)).hang top side.other)
      ⟨side, y, c⟩ ?_ ((h.holdsPivot.withChild _ _).hang _ _) ?_ ?_
    · simp [turned, h.getPivot]
    · rw [Node.child_hang, Node.child_withChild]
      refine h.inner.hang hbs fun i hi => ?_
      have hp : i ≠ pivot := fun he => hpb (he ▸ hi)
      have ht : i ≠ top := fun he => htb (he ▸ hi)
      have hq : i ≠ parent := fun he => hapart.2.2.1 (he ▸ hi)
      simp [turned, hp, ht, hq]
    · rw [Node.child_hang, Node.child_withChild_other]
      exact h.far.congr fun i hi => h.turned_of_mem (.inr hi)

theorem Pivot.relinked (h : g.Pivot side parent s pivot top n m x y a b c as bs cs) :
    g.Relinked (g.turned side pivot top (m.child side.other) parent s) parent s top
      (side.weave as top (side.weave bs pivot cs)) := by
  intro i hi
  simp only [Side.mem_weave, not_or] at hi
  obtain ⟨-, hit, hib, hip, -⟩ := hi
  have hinner : m.child side.other ≠ some i := fun he => hib (h.inner.mem he)
  simp [turned, hip, hit, hinner]

end

/-! ## Turning one node -/

/-- A tree lies in slots of its own and is linked with its parent, both ways. -/
structure Hung (g : Nodes) (parent : Nat) (s : Side) (slot : Nat) (t : Tree) (slots : List Nat) :
    Prop where
  laid : g.Laid parent s (some slot) t slots
  nodup : slots.Nodup
  apart : parent ∉ slots
  linked : ∃ q, g parent = some q ∧ q.child s = some slot

theorem Hung.of_relinked (h : g.Hung parent s slot t slots) {t' : Tree} {top : Nat}
    (hlaid : g'.Laid parent s (some top) t' slots) (hr : g.Relinked g' parent s top slots) :
    g'.Hung parent s top t' slots where
  laid := hlaid
  nodup := h.nodup
  apart := h.apart
  linked := by
    obtain ⟨q, hq, -⟩ := h.linked
    refine ⟨q.withChild s (some top), ?_, Node.child_withChild⟩
    rw [hr parent h.apart, if_pos rfl, hq]
    rfl

/-- A node was replaced by what some tree has become, in the same slots. -/
structure Replaced (g : Nodes) (parent : Nat) (s : Side) (slots : List Nat) (up : Lifted)
    (u : Rebuilt) : Prop where
  rotations : up.rotations = u.rotations
  hung : up.nodes.Hung parent s up.top u.tree slots
  outside : g.Relinked up.nodes parent s up.top slots

section

variable {side : Side} {pivot : Nat} {x y : Cell} {a b c : Tree}

/-- The child on a side of a node is put in its place. -/
theorem Hung.lift
    (h : g.Hung parent s pivot (Crumb.plug ⟨side, y, c⟩ (Crumb.plug ⟨side, x, b⟩ a)) slots) :
    ∃ up, g.lift side pivot = some up ∧
      g.Replaced parent s slots up ⟨Crumb.join ⟨side, x, Crumb.join ⟨side, y, c⟩ b⟩ a, 1⟩ := by
  obtain ⟨_, n, _, cs, hs, rfl, hpivot, hn, hnear, hc⟩ := h.laid.exists_of_plug
  cases hs
  obtain ⟨top, m, as, bs, hchild, rfl, htop, hm, ha, hb⟩ := hnear.exists_of_plug
  rw [Side.weave_weave] at h ⊢
  have hp : g.Pivot side parent s pivot top n m x y a b c as bs cs :=
    ⟨hpivot, htop, hn, hm, ha, hb, hc, h.nodup, h.apart⟩
  obtain ⟨q, hq, -⟩ := h.linked
  have hlinks := hp.links (by simp [hq])
  -- the numbers of the node are stored first, since those of the child follow from them
  obtain ⟨g₁, hg₁, hlaid₁, hsame₁⟩ := hp.laid.recount_sibling ⟨side, y, c⟩ h.nodup
    (m := (m.withChild side.other (some pivot)).hang parent s)
    (by simp [turned, hp.ne.1.symm, htop]) (show _ = some pivot by simp)
  obtain ⟨g₂, hg₂, hlaid₂, hsame₂⟩ := hlaid₁.recount_plug h.nodup
  have hrelinked : g.Relinked g₂ parent s top (side.weave as top (side.weave bs pivot cs)) := by
    intro i hi
    have hout := hi
    simp only [Side.mem_weave, not_or] at hout
    rw [hsame₂ i hout.2.1, hsame₁ i hout.2.2.2.1, hp.relinked i hi]
  refine ⟨⟨top, 1, g₂⟩, ?_, rfl, h.of_relinked hlaid₂ hrelinked, hrelinked⟩
  simp only [Option.bind_eq_bind, Option.bind_eq_some_iff] at hlinks
  obtain ⟨h₁, hh₁, h₂, hh₂, hh₃⟩ := hlinks
  simp only at hchild
  simp [Nodes.lift, hpivot, hchild, htop, hn.parent, hn.side, hh₁, hh₂, hh₃, hg₁, hg₂]

theorem Hung.relinked_of_same (h : g.Hung parent s slot t slots) (hg : ∀ i ∉ slots, g' i = g i) :
    g.Relinked g' parent s slot slots := by
  intro i hi
  rw [hg i hi]
  split
  · rename_i hip
    obtain ⟨q, hq, hchild⟩ := h.linked
    rw [hip, hq, Option.map_some, Node.withChild_child hchild]
  · rfl

theorem Relinked.trans {g₁ g₂ : Nodes} {top₁ top₂ : Nat} (h : g.Relinked g₁ parent s top₁ slots)
    (h' : g₁.Relinked g₂ parent s top₂ slots) : g.Relinked g₂ parent s top₂ slots := by
  intro i hi
  rw [h' i hi, h i hi]
  split
  · rw [Option.map_map]
    exact congrArg (Option.map · (g i)) (funext fun n => Node.withChild_withChild)
  · rfl

/-- Where a subtree is replaced below a node, nothing changes around the slots of the node. -/
theorem Hung.focus {below : Crumb} (h : g.Hung parent s slot (crumb.plug (below.plug t)) slots) :
    ∃ child near, g.Hung slot crumb.side child (below.plug t) near ∧
      ∀ {g' : Nodes} {child' : Nat} {t' : Tree}, g'.Hung slot crumb.side child' t' near →
        g.Relinked g' slot crumb.side child' near →
          g'.Hung parent s slot (crumb.plug t') slots ∧ g.Relinked g' parent s slot slots := by
  obtain ⟨_, n, near, far, hs, rfl, hget, hn, hnear, hfar⟩ := h.laid.exists_of_plug
  cases hs
  obtain ⟨child, _, _, _, hchild, -⟩ := hnear.exists_of_plug
  rw [hchild] at hnear
  obtain ⟨hnn, -, hsn, hsf, hnf⟩ := Side.nodup_weave.1 h.nodup
  refine ⟨child, near, ⟨hnear, hnn, hsn, n, hget, hchild⟩, fun {g' child' t'} h' hr => ?_⟩
  have hroot : g' slot = some (n.withChild crumb.side (some child')) := by
    rw [hr slot hsn, if_pos rfl, hget, Option.map_some]
  have hsame : ∀ i ∉ crumb.side.weave near slot far, g' i = g i := by
    intro i hi
    simp only [Side.mem_weave, not_or] at hi
    rw [hr i hi.1, if_neg hi.2.1]
  have hrelinked := h.relinked_of_same hsame
  refine ⟨h.of_relinked (Laid.plug crumb hroot (hn.withChild _ _) ?_ ?_) hrelinked, hrelinked⟩
  · rw [Node.child_withChild]
    exact h'.laid
  · rw [Node.child_withChild_other]
    refine hfar.congr fun i hi => ?_
    have hne : i ≠ slot := fun he => hsf (he ▸ hi)
    rw [hr i fun hin => hnf hin hi, if_neg hne]

theorem Hung.excess (crumb : Crumb) (h : g.Hung parent s slot (crumb.plug t) slots) :
    g.excess crumb.side slot = some ((t.height : Int) - crumb.sibling.height) ∧
      g.excess crumb.side.other slot = some ((crumb.sibling.height : Int) - t.height) := by
  obtain ⟨_, n, near, far, hs, -, hget, -, hnear, hfar⟩ := h.laid.exists_of_plug
  cases hs
  simp [Nodes.excess, hget, hnear.heightOf, hfar.heightOf]

/-- A side that does not lean inward takes one rotation. -/
theorem Hung.liftHeavy_single (side : Side)
    (h : g.Hung parent s pivot (Crumb.plug ⟨side, y, c⟩ (Crumb.plug ⟨side, x, b⟩ a)) slots)
    (ha : a.Counted) (hb : b.Counted) (hle : b.depth ≤ a.depth) :
    ∃ up, g.liftHeavy side pivot = some up ∧
      g.Replaced parent s slots up ⟨Crumb.join ⟨side, x, Crumb.join ⟨side, y, c⟩ b⟩ a, 1⟩ := by
  obtain ⟨heavy, near, hheavy, -⟩ := h.focus
  obtain ⟨n, hn, hchild⟩ := hheavy.linked
  obtain ⟨up, hlift, hup⟩ := h.lift
  rw [← ha.height_eq, ← hb.height_eq] at hle
  refine ⟨up, ?_, hup⟩
  simp [liftHeavy, hn, hchild, (hheavy.excess _).2, Nat.not_lt.2 hle, hlift]

/-- A side that leans inward takes two rotations. -/
theorem Hung.liftHeavy_double (side : Side) {z : Cell} {d : Tree}
    (h : g.Hung parent s pivot (Crumb.plug ⟨side, y, d⟩
      (Crumb.plug ⟨side.other, x, a⟩ (Crumb.plug ⟨side.other, z, b⟩ c))) slots)
    (ha : a.Counted) (hin : (Crumb.plug ⟨side.other, z, b⟩ c).Counted)
    (hlt : a.depth < (Crumb.plug ⟨side.other, z, b⟩ c).depth) :
    ∃ up, g.liftHeavy side pivot = some up ∧
      g.Replaced parent s slots up ⟨Crumb.join ⟨side, z, Crumb.join ⟨side, y, d⟩ c⟩
        (Crumb.join ⟨side.other, x, a⟩ b), 2⟩ := by
  obtain ⟨heavy, near, hheavy, hback⟩ := h.focus
  obtain ⟨n, hn, hchild⟩ := hheavy.linked
  obtain ⟨up₁, hfirst, hup₁⟩ := hheavy.lift
  obtain ⟨h₁, hr₁⟩ := hback hup₁.hung hup₁.outside
  -- The cell that was lifted has the other one on its outer side now, as one lift more needs it.
  obtain ⟨z', hz, hjoin⟩ := Crumb.exists_join_other side z c (Crumb.join ⟨side.other, x, a⟩ b)
  rw [hjoin] at h₁
  obtain ⟨up₂, hsecond, hup₂⟩ := h₁.lift
  rw [← ha.height_eq, ← hin.height_eq] at hlt
  refine ⟨{ up₂ with rotations := up₁.rotations + up₂.rotations }, ?_, ?_, ?_,
    hr₁.trans hup₂.outside⟩
  · simp [liftHeavy, hn, hchild, (hheavy.excess _).1, hlt, hfirst, hsecond]
  · simp only [hup₁.rotations, hup₂.rotations]
  · have hcell (u v : Tree) : Crumb.join ⟨side, z', u⟩ v = Crumb.join ⟨side, z, u⟩ v := by
      simp [Crumb.join, hz]
    simpa only [hcell] using hup₂.hung

end

/-! ## Balancing -/

theorem Hung.recount {l r : Tree} {c : Cell}
    (h : g.Hung parent s slot (.node l c r) slots) :
    ∃ g', g.recount slot = some g' ∧ g'.Hung parent s slot (.make l c.toEntry r) slots ∧
      g.Relinked g' parent s slot slots := by
  obtain ⟨g', hg', hlaid, hsame⟩ := h.laid.recount h.nodup
  have hrelinked := h.relinked_of_same fun i hi => hsame i fun he => hi (he ▸ h.laid.mem rfl)
  exact ⟨g', hg', h.of_relinked hlaid hrelinked, hrelinked⟩

theorem Hung.restructure {l r : Tree} {e : Entry} (hl : l.Sound) (hr : r.Sound)
    (hlr : l.depth ≤ r.depth + 2) (hrl : r.depth ≤ l.depth + 2)
    (h : g.Hung parent s slot (.make l e r) slots) :
    ∃ up, g.restructure slot = some up ∧
      g.Replaced parent s slots up (Tree.balance l e r) := by
  have hexcess : g.excess .left slot = some ((l.depth : Int) - r.depth) := by
    rw [← hl.counted.height_eq, ← hr.counted.height_eq]
    exact (Hung.excess ⟨.left, _, r⟩ h).1
  by_cases hnear : l.Near r
  · have h₁ : ¬ (1 : Int) < l.depth - r.depth := by omega
    have h₂ : ¬ (l.depth : Int) - r.depth < -1 := by omega
    rw [Tree.balance_of_near hl hr hnear]
    refine ⟨⟨slot, 0, g⟩, ?_, rfl, h, h.relinked_of_same fun _ _ => rfl⟩
    simp [Nodes.restructure, hexcess, h₁, h₂]
  rcases Nat.lt_or_ge r.depth l.depth with hlt | hge
  · have h₁ : (1 : Int) < l.depth - r.depth := by omega
    rw [Nodes.restructure, hexcess, Option.bind_eq_bind, Option.bind_some, if_pos h₁]
    rcases Tree.balance_of_left hl hr e (by omega) with
      ⟨a, x, b, y, c, rfl, hin, hb⟩ | ⟨a, x, b, rfl, hout, hb⟩
    · rw [hb]
      exact Hung.liftHeavy_double .left h hl.left.counted hl.right.counted hin
    · rw [hb]
      exact Hung.liftHeavy_single .left h hl.left.counted hl.right.counted hout
  · have h₁ : ¬ (1 : Int) < l.depth - r.depth := by omega
    have h₂ : (l.depth : Int) - r.depth < -1 := by omega
    rw [Nodes.restructure, hexcess, Option.bind_eq_bind, Option.bind_some, if_neg h₁, if_pos h₂]
    rcases Tree.balance_of_right hl hr e (by omega) with
      ⟨a, x, b, y, c, rfl, hin, hb⟩ | ⟨b, y, c, rfl, hout, hb⟩
    · rw [hb]
      exact Hung.liftHeavy_double .right h hr.right.counted hr.left.counted hin
    · rw [hb]
      exact Hung.liftHeavy_single .right h hr.right.counted hr.left.counted hout

/-- A tree that may stand where another one stood: it has the same rows in the same order, its
numbers are true, and it is as high or by one lower. -/
structure Stands (t u : Tree) : Prop where
  sound : u.Sound
  toList : u.toList = t.toList
  visible : u.visible = t.visible
  height : u.height = t.height ∨ u.height + 1 = t.height

theorem stands_balance {l r : Tree} (hl : l.Sound) (hr : r.Sound) (e : Entry)
    (hlr : l.depth ≤ r.depth + 2) (hrl : r.depth ≤ l.depth + 2) :
    Stands (.make l e r) (Tree.balance l e r).tree := by
  have hmake := hl.counted.make hr.counted e
  have hj := hl.balance hr e hlr hrl
  have hd := hj.depth
  refine ⟨hj.sound, by simp, ?_, ?_⟩
  · rw [hj.sound.counted.visible_eq, hmake.visible_eq]
    simp
  · rw [hj.sound.counted.height_eq, hmake.height_eq, Tree.depth_make]
    omega

/-- Balancing a node, after its own numbers were made true, makes the tree below it the one that
`balance` makes. Every row stays in its slot, and around the slots nothing changes but the link of
the parent. -/
theorem Hung.rebalance {l r : Tree} {c : Cell} (hl : l.Sound) (hr : r.Sound)
    (hlr : l.depth ≤ r.depth + 2) (hrl : r.depth ≤ l.depth + 2)
    (h : g.Hung parent s slot (.node l c r) slots) :
    ∃ g₁ up, g.recount slot = some g₁ ∧ g₁.restructure slot = some up ∧
      g.Replaced parent s slots up (Tree.balance l c.toEntry r) ∧
      Stands (.make l c.toEntry r) (Tree.balance l c.toEntry r).tree := by
  obtain ⟨g₁, hg₁, h₁, hr₁⟩ := h.recount
  obtain ⟨up, hup, hu⟩ := h₁.restructure hl hr hlr hrl
  exact ⟨g₁, up, hg₁, hup, ⟨hu.rotations, hu.hung, hr₁.trans hu.outside⟩,
    stands_balance hl hr _ hlr hrl⟩

end

def row (object : UInt32) : Entry := ⟨⟨⟨object, 0⟩, [], 0⟩, false⟩

/-- Three rows, one below the other: the first of them hangs on the left of the third, and the
second on the right of the first. -/
def bent : Nodes
  | 0 => some ⟨⟨⟨Row.ground, true⟩, 2, 2⟩, true, none, .right, none, some 1⟩
  | 1 => some ⟨⟨row 3, 1, 1⟩, false, some 0, .right, some 2, none⟩
  | 2 => some ⟨⟨row 1, 2, 2⟩, false, some 1, .left, none, some 3⟩
  | 3 => some ⟨⟨row 2, 1, 1⟩, false, some 2, .right, none, none⟩
  | _ => none

/-- The second row comes out on top of the two others. -/
theorem Hung.rebalance_bent :
    let leaf (e : Entry) : Tree := .make .nil e .nil
    let l : Tree := .make .nil (row 1) (leaf (row 2))
    let c : Cell := ⟨row 3, 1, 1⟩
    l.Sound ∧ bent.Hung 0 .right 1 (.node l c .nil) [2, 3, 1] ∧
      ∃ g₁ up, bent.recount 1 = some g₁ ∧ g₁.restructure 1 = some up ∧ up.rotations = 2 ∧
        up.nodes.Hung 0 .right up.top (.make (leaf (row 1)) (row 2) (leaf (row 3))) [2, 3, 1] ∧
        bent.Relinked up.nodes 0 .right up.top [2, 3, 1] := by
  intro leaf l c
  have hleaf : (leaf (row 2)).Sound := Tree.sound_nil.make Tree.sound_nil (.refl _) _
  have hl : l.Sound := Tree.sound_nil.make hleaf (by decide) _
  have hlaid : bent.Laid 0 .right (some 1) (.node l c .nil)
      (([] ++ 2 :: ([] ++ 3 :: [])) ++ 1 :: []) :=
    .node rfl ⟨rfl, rfl, rfl, rfl⟩
      (.node rfl ⟨rfl, rfl, rfl, rfl⟩ (.nil 2 .left)
        (.node rfl ⟨rfl, rfl, rfl, rfl⟩ (.nil 3 .left) (.nil 3 .right)))
      (.nil 1 .right)
  have hung : bent.Hung 0 .right 1 (.node l c .nil) [2, 3, 1] :=
    ⟨hlaid, by decide, by decide, _, rfl, rfl⟩
  have hbalance : Tree.balance l (row 3) .nil =
      ⟨.make (leaf (row 1)) (row 2) (leaf (row 3)), 2⟩ := by decide
  obtain ⟨g₁, up, hg₁, hup, hu, -⟩ :=
    hung.rebalance hl Tree.sound_nil (by decide) (by decide)
  rw [show c.toEntry = row 3 from rfl, hbalance] at hu
  exact ⟨hl, hung, g₁, up, hg₁, hup, hu.rotations, hu.hung, hu.outside⟩

end Nodes

end LiveTable
