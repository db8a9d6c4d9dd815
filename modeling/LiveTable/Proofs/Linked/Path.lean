import LiveTable.Linked.Edit
import LiveTable.Proofs.Tree.Links

/-!
# Paths of linked nodes

What lies above a subtree lies in nodes, too: `Path` is the layout of a tree with a hole in it, where
`Laid` is the layout of a whole one. A whole layout is taken apart at the hole (`Laid.exists_path`),
and one path is continued by another (`Path.append`). As a layout does, a path depends on its own
slots only.

A path that goes up to the ground is a `Spine`. A subtree that hangs under it (`Hangs`) may be gone
into (`Hangs.node`) or left (`Hangs.up`), and the slots of the whole tree stay the same list. All
that is known about walks follows from these two. A tree that hangs from the ground, with its numbers
stored there, is `Grown`.
-/

namespace LiveTable

/-- Where a crumb lies: its slot, and those of the subtree on its other side. -/
structure Rib where
  side : Side
  slot : Nat
  far : List Nat

def Rib.weave (r : Rib) (slots : List Nat) : List Nat := r.side.weave slots r.slot r.far

/-- The slots of a tree in order, of which `slots` are those below the ribs. -/
def weaveAll (ribs : List Rib) (slots : List Nat) : List Nat :=
  ribs.foldl (fun slots r => r.weave slots) slots

@[simp] theorem weaveAll_nil (slots : List Nat) : weaveAll [] slots = slots := rfl

@[simp] theorem weaveAll_cons (r : Rib) (ribs : List Rib) (slots : List Nat) :
    weaveAll (r :: ribs) slots = weaveAll ribs (r.weave slots) := rfl

theorem weaveAll_append (ribs ribs' : List Rib) (slots : List Nat) :
    weaveAll (ribs ++ ribs') slots = weaveAll ribs' (weaveAll ribs slots) := List.foldl_append

theorem Rib.weave_perm (r : Rib) (slots : List Nat) :
    (r.weave slots).Perm (slots ++ r.weave []) := by
  obtain ⟨side, slot, far⟩ := r
  cases side with
  | left => exact .refl _
  | right =>
    show (far ++ slot :: slots).Perm (slots ++ (far ++ [slot]))
    rw [List.append_cons far slot slots]
    exact List.perm_append_comm

/-- What lies below and what lies above make up the whole. -/
theorem weaveAll_perm (ribs : List Rib) (slots : List Nat) :
    (weaveAll ribs slots).Perm (slots ++ weaveAll ribs []) := by
  induction ribs generalizing slots with
  | nil => simp
  | cons r ribs ih =>
    have hbelow := (r.weave_perm slots).append_right (weaveAll ribs [])
    rw [List.append_assoc] at hbelow
    exact (ih _).trans (hbelow.trans ((ih (r.weave [])).symm.append_left slots))

theorem mem_weaveAll {ribs : List Rib} {slots : List Nat} {i : Nat} :
    i ∈ weaveAll ribs slots ↔ i ∈ slots ∨ i ∈ weaveAll ribs [] := by
  rw [(weaveAll_perm ribs slots).mem_iff, List.mem_append]

theorem mem_weaveAll_cons {r : Rib} {ribs : List Rib} {i : Nat} :
    i ∈ weaveAll (r :: ribs) [] ↔ i = r.slot ∨ i ∈ r.far ∨ i ∈ weaveAll ribs [] := by
  rw [weaveAll_cons, mem_weaveAll, Rib.weave, Side.mem_weave]
  simp [or_assoc]

theorem nodup_weaveAll {ribs : List Rib} {slots : List Nat} :
    (weaveAll ribs slots).Nodup ↔
      slots.Nodup ∧ (weaveAll ribs []).Nodup ∧ slots.Disjoint (weaveAll ribs []) := by
  rw [(weaveAll_perm ribs slots).nodup_iff, List.nodup_append']

/-- The slots below a hole are none of those above, and not that of the ground. -/
theorem apart_of_nodup {ribs : List Rib} {slots : List Nat}
    (h : (0 :: weaveAll ribs slots).Nodup) :
    slots.Nodup ∧ (0 :: weaveAll ribs []).Nodup ∧ ∀ i ∈ slots, i ∉ 0 :: weaveAll ribs [] := by
  obtain ⟨h0, hn⟩ := List.nodup_cons.1 h
  obtain ⟨hslots, hribs, hdisj⟩ := nodup_weaveAll.1 hn
  refine ⟨hslots, List.nodup_cons.2 ⟨fun hi => h0 (mem_weaveAll.2 (.inr hi)), hribs⟩, ?_⟩
  rintro i hi (_ | ⟨_, hi'⟩)
  · exact h0 (mem_weaveAll.2 (.inl hi))
  · exact hdisj hi hi'

theorem count_weaveAll (ribs : List Rib) (slots : List Nat) (i : Nat) :
    (weaveAll ribs slots).count i = slots.count i + (weaveAll ribs []).count i := by
  rw [(weaveAll_perm ribs slots).count_eq, List.count_append]

theorem nodup_weaveAll_cons {r : Rib} {ribs : List Rib} :
    (weaveAll (r :: ribs) []).Nodup ↔
      (r.slot ∉ r.far ∧ r.far.Nodup) ∧ (weaveAll ribs []).Nodup ∧
        r.slot ∉ weaveAll ribs [] ∧ r.far.Disjoint (weaveAll ribs []) := by
  have hperm : (weaveAll (r :: ribs) []).Perm ((r.slot :: r.far) ++ weaveAll ribs []) := by
    refine (weaveAll_perm ribs (r.weave [])).trans (List.Perm.append_right _ ?_)
    obtain ⟨side, slot, far⟩ := r
    cases side with
    | left => exact .refl _
    | right => exact @List.perm_append_comm Nat far [slot]
  rw [hperm.nodup_iff, List.nodup_append', List.nodup_cons, List.disjoint_cons_left]

structure Node.IsGround (n : Node) : Prop where
  ground : n.ground = true
  entry : n.cell.toEntry = ⟨.ground, false⟩
  left : n.left = none

namespace Nodes

/-- The crumbs lie in nodes, the nearest first, under a side of the node `top`. The first of them
hangs there by the link `o`; the last index is the link at the hole. -/
inductive Path (g : Nodes) (top : Nat) (side : Side) (o : Option Nat) :
    List Crumb → List Rib → Nat → Side → Option Nat → Prop where
  | nil : Path g top side o [] [] top side o
  | cons {above : List Crumb} {ribs : List Rib} {parent slot : Nat} {s : Side} {n : Node}
    {far : List Nat} (c : Crumb) (up : Path g top side o above ribs parent s (some slot))
    (get : g slot = some n) (holds : n.Holds c.cell parent s)
    (sibling : g.Laid slot c.side.other (n.child c.side.other) c.sibling far) :
    Path g top side o (c :: above) (⟨c.side, slot, far⟩ :: ribs) slot c.side (n.child c.side)

section

variable {g g' : Nodes} {top parent : Nat} {side s : Side} {o b : Option Nat}
  {above below : List Crumb} {ribs : List Rib} {t : Tree} {slots : List Nat}

/-- A tree is taken apart into what is below some crumbs and what is above. -/
theorem Laid.exists_path (h : g.Laid top side o (plugAll above t) slots) :
    ∃ ribs parent s b below, g.Path top side o above ribs parent s b ∧
      g.Laid parent s b t below ∧ slots = weaveAll ribs below := by
  induction above generalizing t with
  | nil => exact ⟨[], _, _, _, _, .nil, h, rfl⟩
  | cons c cs ih =>
    obtain ⟨ribs, parent, s, b, below, hp, hl, hs⟩ := ih h
    obtain ⟨slot, n, near, far, rfl, rfl, get, holds, hnear, hfar⟩ := hl.exists_of_plug
    exact ⟨_, _, _, _, near, .cons c hp get holds hfar, hnear, hs⟩

theorem Path.append {ribs' : List Rib} {parent' : Nat} {s' : Side} {b' : Option Nat}
    (h : g.Path top side o above ribs parent s b)
    (h' : g.Path parent s b below ribs' parent' s' b') :
    g.Path top side o (below ++ above) (ribs' ++ ribs) parent' s' b' := by
  induction h' with
  | nil => exact h
  | cons c up get holds sibling ih => exact .cons c ih get holds sibling

theorem Path.eq_of_nil (h : g.Path top side o [] ribs parent s b) :
    ribs = [] ∧ parent = top ∧ s = side ∧ b = o := by
  cases h
  exact ⟨rfl, rfl, rfl, rfl⟩

theorem Path.parent_mem (h : g.Path top side o above ribs parent s b) :
    parent = top ∧ above = [] ∨ parent ∈ weaveAll ribs [] := by
  cases h with
  | nil => exact .inl ⟨rfl, rfl⟩
  | cons c up get holds sibling => exact .inr (mem_weaveAll_cons.2 (.inl rfl))

/-- A path depends on its own slots only. -/
theorem Path.congr (h : g.Path top side o above ribs parent s b)
    (hg : ∀ i ∈ weaveAll ribs [], g' i = g i) : g'.Path top side o above ribs parent s b := by
  induction h with
  | nil => exact .nil
  | cons c up get holds sibling ih =>
    refine .cons c (ih fun i hi => hg i ?_) ((hg _ ?_).trans get) holds
      (sibling.congr fun i hi => hg i ?_)
    · exact mem_weaveAll_cons.2 (.inr (.inr hi))
    · exact mem_weaveAll_cons.2 (.inl rfl)
    · exact mem_weaveAll_cons.2 (.inr (.inl hi))

/-- A path depends on its own slots only, and on the link of its last node to what hangs there. -/
theorem Path.relink (h : g.Path top side o above ribs parent s b) (hne : above ≠ [])
    (hn : (weaveAll ribs []).Nodup) {b' : Option Nat}
    (hg : ∀ i ∈ weaveAll ribs [],
      g' i = if i = parent then (g i).map (·.withChild s b') else g i) :
    g'.Path top side o above ribs parent s b' := by
  cases h with
  | nil => exact absurd rfl hne
  | @cons above ribs parent' _ s' n far c up get holds sibling =>
    obtain ⟨⟨hfar, -⟩, -, habove, -⟩ := nodup_weaveAll_cons.1 hn
    have hslot := hg parent (mem_weaveAll_cons.2 (.inl rfl))
    rw [if_pos rfl, get, Option.map_some] at hslot
    have hup : g'.Path top side o above ribs parent' s' (some parent) := up.congr fun i hi => by
      rw [hg i (mem_weaveAll_cons.2 (.inr (.inr hi))), if_neg]
      rintro rfl
      exact habove hi
    have hsibling : g'.Laid parent c.side.other ((n.withChild c.side b').child c.side.other)
        c.sibling far := by
      rw [Node.child_withChild_other]
      refine sibling.congr fun i hi => ?_
      rw [hg i (mem_weaveAll_cons.2 (.inr (.inl hi))), if_neg]
      rintro rfl
      exact hfar hi
    have := hup.cons c hslot (holds.withChild _ _) hsibling
    rwa [Node.child_withChild] at this

theorem Path.head_mem {i : Nat} (h : g.Path top side (some i) above ribs parent s b)
    (hne : above ≠ []) : i ∈ weaveAll ribs [] := by
  induction h with
  | nil => exact absurd rfl hne
  | @cons above _ _ _ _ _ _ c up get holds sibling ih =>
    cases above with
    | nil =>
      cases up.eq_of_nil.2.2.2
      exact mem_weaveAll_cons.2 (.inl rfl)
    | cons => exact mem_weaveAll_cons.2 (.inr (.inr (ih (by simp))))

theorem Path.hang {i top' : Nat} {side' : Side}
    (h : g.Path top side (some i) above ribs parent s b) (hne : above ≠ [])
    (hn : (weaveAll ribs []).Nodup)
    (hg : ∀ j ∈ weaveAll ribs [],
      g' j = if j = i then (g j).map (·.hang top' side') else g j) :
    g'.Path top' side' (some i) above ribs parent s b := by
  induction h with
  | nil => exact absurd rfl hne
  | @cons above ribs parent slot s n far c up get holds sibling ih =>
    obtain ⟨⟨hfar, -⟩, hup, habove, hdisj⟩ := nodup_weaveAll_cons.1 hn
    have hslot := hg slot (mem_weaveAll_cons.2 (.inl rfl))
    -- the siblings do not have the first node among them, since it is above or is their parent
    have hsibling (hi : i = slot ∨ i ∈ weaveAll ribs []) :
        g'.Laid slot c.side.other (n.child c.side.other) c.sibling far := by
      refine sibling.congr fun j hj => ?_
      rw [hg j (mem_weaveAll_cons.2 (.inr (.inl hj))), if_neg]
      rintro rfl
      rcases hi with rfl | hi
      · exact hfar hj
      · exact hdisj hj hi
    cases above with
    | nil =>
      obtain ⟨rfl, rfl, rfl, he⟩ := up.eq_of_nil
      cases he
      rw [if_pos rfl, get, Option.map_some] at hslot
      have := (Path.nil (g := g') (o := some i)).cons c hslot (holds.hang top' side')
        (by rw [Node.child_hang]; exact hsibling (.inl rfl))
      rwa [Node.child_hang] at this
    | cons =>
      have hi : i ∈ weaveAll _ [] := up.head_mem (by simp)
      have hne' : slot ≠ i := fun he => habove (he ▸ hi)
      rw [if_neg hne', get] at hslot
      refine .cons c (ih (by simp) hup fun j hj => ?_) hslot holds (hsibling (.inr hi))
      exact hg j (mem_weaveAll_cons.2 (.inr (.inr hj)))

/-! ## Up to the ground -/

def Spine (g : Nodes) (above : List Crumb) (ribs : List Rib) (parent : Nat) (s : Side)
    (b : Option Nat) : Prop :=
  ∃ n, g 0 = some n ∧ n.IsGround ∧ g.Path 0 .right n.right above ribs parent s b

theorem Spine.cons {slot : Nat} {n : Node} {far : List Nat} (c : Crumb)
    (h : g.Spine above ribs parent s (some slot)) (get : g slot = some n)
    (holds : n.Holds c.cell parent s)
    (sibling : g.Laid slot c.side.other (n.child c.side.other) c.sibling far) :
    g.Spine (c :: above) (⟨c.side, slot, far⟩ :: ribs) slot c.side (n.child c.side) := by
  obtain ⟨m, hm, hground, hp⟩ := h
  exact ⟨m, hm, hground, hp.cons c get holds sibling⟩

theorem Spine.append {ribs' : List Rib} {parent' : Nat} {s' : Side} {b' : Option Nat}
    (h : g.Spine above ribs parent s b) (h' : g.Path parent s b below ribs' parent' s' b') :
    g.Spine (below ++ above) (ribs' ++ ribs) parent' s' b' := by
  obtain ⟨m, hm, hground, hp⟩ := h
  exact ⟨m, hm, hground, hp.append h'⟩

theorem Spine.parent_mem (h : g.Spine above ribs parent s b) :
    parent ∈ 0 :: weaveAll ribs [] := by
  obtain ⟨m, -, -, hp⟩ := h
  rcases hp.parent_mem with ⟨rfl, -⟩ | hm
  · exact List.mem_cons_self
  · exact List.mem_cons_of_mem _ hm

theorem Spine.linked (h : g.Spine above ribs parent s b) :
    ∃ q, g parent = some q ∧ q.child s = b := by
  obtain ⟨m, hm, -, hp⟩ := h
  cases hp with
  | nil => exact ⟨m, hm, rfl⟩
  | cons c up get => exact ⟨_, get, rfl⟩

theorem Spine.congr (h : g.Spine above ribs parent s b)
    (hg : ∀ i ∈ 0 :: weaveAll ribs [], g' i = g i) : g'.Spine above ribs parent s b := by
  obtain ⟨m, hm, hground, hp⟩ := h
  exact ⟨m, (hg 0 List.mem_cons_self).trans hm, hground,
    hp.congr fun i hi => hg i (List.mem_cons_of_mem _ hi)⟩

theorem Spine.relink (h : g.Spine above ribs parent s b) (hn : (0 :: weaveAll ribs []).Nodup)
    {b' : Option Nat}
    (hg : ∀ i ∈ 0 :: weaveAll ribs [],
      g' i = if i = parent then (g i).map (·.withChild s b') else g i) :
    g'.Spine above ribs parent s b' := by
  obtain ⟨m, hm, hground, hp⟩ := h
  obtain ⟨h0, hnodup⟩ := List.nodup_cons.1 hn
  have hzero := hg 0 List.mem_cons_self
  have hrest : ∀ i ∈ weaveAll ribs [], _ := fun i hi => hg i (List.mem_cons_of_mem _ hi)
  by_cases hne : above = []
  · subst hne
    cases hp
    rw [if_pos rfl, hm] at hzero
    exact ⟨_, hzero, ⟨hground.ground, hground.entry, hground.left⟩, .nil⟩
  · have hpar : (0 : Nat) ≠ parent := by
      rintro rfl
      rcases hp.parent_mem with ⟨-, he⟩ | hm
      · exact hne he
      · exact h0 hm
    rw [if_neg hpar, hm] at hzero
    exact ⟨m, hzero, hground, hp.relink hne hnodup hrest⟩

/-! ## Subtrees and what is above them -/

/-- A subtree hangs under crumbs that go up to the ground; `all` are the slots of the whole. -/
def Hangs (g : Nodes) (all : List Nat) (above : List Crumb) (t : Tree) (parent : Nat) (s : Side)
    (b : Option Nat) : Prop :=
  ∃ ribs slots, g.Spine above ribs parent s b ∧ g.Laid parent s b t slots ∧
    weaveAll ribs slots = all

/-- A tree hangs from the ground, where its numbers are stored, too. -/
structure Grown (g : Nodes) (t : Tree) (all : List Nat) : Prop where
  nodup : (0 :: all).Nodup
  laid : ∃ n, g 0 = some n ∧ n.IsGround ∧ n.cell.visible = t.visible ∧ n.cell.height = t.height ∧
    g.Laid 0 .right n.right t all

theorem Grown.hangs {all : List Nat} (h : g.Grown t all) :
    ∃ n, g 0 = some n ∧ g.Hangs all [] t 0 .right n.right := by
  obtain ⟨n, hn, hground, -, -, hl⟩ := h.laid
  exact ⟨n, hn, [], all, ⟨n, hn, hground, .nil⟩, hl, rfl⟩

theorem Grown.zero_notMem {all : List Nat} (h : g.Grown t all) : 0 ∉ all :=
  (List.nodup_cons.1 h.nodup).1

theorem Grown.live {all : List Nat} {i : Nat} (h : g.Grown t all) (hi : i ∈ 0 :: all) :
    (g i).isSome := by
  obtain ⟨n, hn, -, -, -, hl⟩ := h.laid
  rcases List.mem_cons.1 hi with rfl | hi
  · rw [hn]
    rfl
  · exact hl.live hi

theorem Grown.congr {all : List Nat} (h : g.Grown t all) (hg : ∀ i ∈ 0 :: all, g' i = g i) :
    g'.Grown t all := by
  obtain ⟨n, hn, hground, hv, hh, hl⟩ := h.laid
  exact ⟨h.nodup, n, (hg 0 List.mem_cons_self).trans hn, hground, hv, hh,
    hl.congr fun i hi => hg i (List.mem_cons_of_mem 0 hi)⟩

theorem Hangs.congr {all : List Nat} (h : g.Hangs all above t parent s b)
    (hg : ∀ i ∈ 0 :: all, g' i = g i) : g'.Hangs all above t parent s b := by
  obtain ⟨ribs, slots, hspine, hl, rfl⟩ := h
  refine ⟨ribs, slots, hspine.congr fun i hi => hg i ?_, hl.congr fun i hi => hg i ?_, rfl⟩
  · exact List.cons_subset_cons 0 (fun _ hj => mem_weaveAll.2 (.inr hj)) hi
  · exact List.mem_cons_of_mem 0 (mem_weaveAll.2 (.inl hi))

/-- A subtree is left for the cell above it. -/
theorem Hangs.up {all : List Nat} {c : Crumb} (h : g.Hangs all (c :: above) t parent s b) :
    s = c.side ∧ ∃ n parent' s', g parent = some n ∧ n.Holds c.cell parent' s' ∧
      n.child c.side = b ∧ g.Hangs all above (c.plug t) parent' s' (some parent) := by
  obtain ⟨ribs, slots, ⟨m, hm, hground, hp⟩, hl, rfl⟩ := h
  cases hp with
  | cons _ up get holds sibling =>
    exact ⟨rfl, _, _, _, get, holds, rfl, _, _, ⟨m, hm, hground, up⟩,
      Laid.plug c get holds hl sibling, rfl⟩

/-- A subtree is gone into on either side. -/
theorem Hangs.node {all : List Nat} {l r : Tree} {c : Cell}
    (h : g.Hangs all above (.node l c r) parent s b) :
    ∃ slot n, b = some slot ∧ slot ∈ all ∧ g slot = some n ∧ n.Holds c parent s ∧
      g.Hangs all (⟨.left, c, r⟩ :: above) l slot .left n.left ∧
      g.Hangs all (⟨.right, c, l⟩ :: above) r slot .right n.right := by
  obtain ⟨ribs, slots, hp, hl, rfl⟩ := h
  cases hl with
  | @node _ slot _ n _ _ _ ls rs get holds left right =>
    have hleft := hp.cons ⟨.left, c, r⟩ get holds right
    have hright := hp.cons ⟨.right, c, l⟩ get holds left
    exact ⟨slot, n, rfl, mem_weaveAll.2 (.inl (by simp)), get, holds,
      ⟨_, ls, hleft, left, rfl⟩, ⟨_, rs, hright, right, rfl⟩⟩

theorem Hangs.eq_nil_iff {all : List Nat} (h : g.Hangs all above t parent s b) :
    t = .nil ↔ b = none := by
  obtain ⟨ribs, slots, -, hl, -⟩ := h
  cases hl <;> simp

theorem Hangs.visibleOf {all : List Nat} (h : g.Hangs all above t parent s b) :
    g.visibleOf b = some t.visible := by
  obtain ⟨ribs, slots, -, hl, -⟩ := h
  exact hl.visibleOf

theorem Hangs.top_level {all : List Nat} (h : g.Hangs all [] t parent s b) :
    parent = 0 ∧ s = .right := by
  obtain ⟨ribs, slots, ⟨m, -, -, hp⟩, -, -⟩ := h
  cases hp
  exact ⟨rfl, rfl⟩

theorem Hangs.exists_top {all : List Nat} {slot : Nat}
    (h : g.Hangs all above t parent s (some slot)) :
    slot ∈ all ∧ ∃ n c, g slot = some n ∧ n.Holds c parent s ∧ t.visible = c.visible := by
  cases t with
  | nil => exact absurd (h.eq_nil_iff.1 rfl) (by simp)
  | node l c r =>
    obtain ⟨_, n, he, hm, get, holds, -, -⟩ := h.node
    cases he
    exact ⟨hm, n, c, get, holds, rfl⟩

/-- A row lies in a slot, and around it the cells of its focus. -/
def At (g : Nodes) (all : List Nat) (f : Focus) (slot : Nat) : Prop :=
  ∃ parent s, g.Hangs all f.above f.subtree parent s (some slot)

/-- A walk has come to a row, or to the ground. -/
def Reaches (g : Nodes) (all : List Nat) : Option Focus → Nat → Prop
  | none, slot => slot = 0
  | some f, slot => g.At all f slot

/-- A descent has come to a row, or to none. -/
def Lands (g : Nodes) (all : List Nat) : Option Focus → Option Nat → Prop
  | none, o => o = none
  | some f, o => ∃ slot, o = some slot ∧ g.At all f slot

theorem At.exists_node {all : List Nat} {f : Focus} {slot : Nat} (h : g.At all f slot) :
    slot ∈ all ∧ ∃ n parent s, g slot = some n ∧ n.Holds f.cell parent s ∧
      g.Hangs all f.above f.subtree parent s (some slot) ∧
      ∀ side, g.Hangs all (f.crumb side :: f.above) (f.child side) slot side (n.child side) := by
  obtain ⟨parent, s, hf⟩ := h
  obtain ⟨_, n, he, hm, get, holds, hl, hr⟩ := hf.node
  cases he
  refine ⟨hm, n, parent, s, get, holds, hf, fun side => ?_⟩
  cases side
  · exact hl
  · exact hr

end

end Nodes

end LiveTable
