import LiveTable.Linked.Edit
import LiveTable.Proofs.Linked.Path

/-!
# Changes of links are those of the tree

Counting and balancing every node on the way up makes of the links what `climb` makes of the tree
(`Spine.rebalances`), as long as the two sides differ in height by two at most at every node that is
met (`Mendable`). A leaf that is linked in (`Hangs.attach`) and a row that is taken out
(`At.unlink`) leave such a way up, so that they come to what `plant` and `Focus.remove` do.
-/

namespace LiveTable

/-! ## Ways up that can be mended -/

/-- Every cell on the way up has two sound sides, one of them changed, that differ in height by two
at most. -/
def Mendable : List Crumb → Tree → Prop
  | [], _ => True
  | c :: above, t =>
    t.Sound ∧ c.sibling.Sound ∧ t.depth ≤ c.sibling.depth + 2 ∧ c.sibling.depth ≤ t.depth + 2 ∧
      Mendable above (c.balance t).tree

theorem mendable_of_near {above : List Crumb} {t u : Tree} (h : (plugAll above t).Sound)
    (hu : u.Sound) (hn : t.Near u) : Mendable above u := by
  induction above generalizing t u with
  | nil => trivial
  | cons c cs ih =>
    have hc : (c.plug t).Sound := sound_of_plugAll cs h
    obtain ⟨h1, h2⟩ := Crumb.sound_balance hc hu hn
    have hside : c.sibling.Sound ∧ t.Near c.sibling := by
      obtain ⟨side, cell, sibling⟩ := c
      cases side
      · exact ⟨hc.right, hc.near⟩
      · exact ⟨hc.left, hc.near.symm⟩
    refine ⟨hu, hside.1, ?_, ?_, ih h h1 h2⟩
    · have := hside.2
      omega
    · have := hside.2
      omega

theorem climb_append (below above : List Crumb) (t : Tree) :
    climb (below ++ above) t =
      ⟨(climb above (climb below t).tree).tree,
        (climb below t).rotations + (climb above (climb below t).tree).rotations⟩ := by
  induction below generalizing t with
  | nil => simp [climb]
  | cons c cs ih => simp only [List.cons_append, climb, ih, Nat.add_assoc]

theorem mendable_append {below above : List Crumb} {t : Tree} :
    Mendable (below ++ above) t ↔ Mendable below t ∧ Mendable above (climb below t).tree := by
  induction below generalizing t with
  | nil => simp [Mendable, climb]
  | cons c cs ih => simp only [List.cons_append, Mendable, ih, climb, and_assoc]

namespace Nodes

variable {g g' : Nodes} {above below : List Crumb} {ribs : List Rib} {parent slot : Nat} {s : Side}
  {b : Option Nat} {t : Tree} {slots : List Nat}

theorem Hung.mend {c : Crumb} (ht : t.Sound) (hc : c.sibling.Sound)
    (hle : t.depth ≤ c.sibling.depth + 2) (hge : c.sibling.depth ≤ t.depth + 2)
    (h : g.Hung parent s slot (c.plug t) slots) :
    ∃ g₁ up, g.recount slot = some g₁ ∧ g₁.restructure slot = some up ∧
      g.Replaced parent s slots up (c.balance t) := by
  obtain ⟨side, cell, sibling⟩ := c
  cases side with
  | left =>
    obtain ⟨g₁, hg₁, h₁, hr₁⟩ := Hung.recount h
    obtain ⟨up, hup, hu⟩ := h₁.restructure ht hc hle hge
    exact ⟨g₁, up, hg₁, hup, hu.rotations, hu.hung, hr₁.trans hu.outside⟩
  | right =>
    obtain ⟨g₁, hg₁, h₁, hr₁⟩ := Hung.recount h
    obtain ⟨up, hup, hu⟩ := h₁.restructure hc ht hge hle
    exact ⟨g₁, up, hg₁, hup, hu.rotations, hu.hung, hr₁.trans hu.outside⟩

theorem Laid.exists_top (h : g.Laid parent s (some slot) t slots) :
    ∃ n, g slot = some n ∧ n.parent = some parent := by
  cases h with
  | node get holds => exact ⟨_, get, holds.parent⟩

theorem Grown.recount {n : Node} (hn : (0 :: slots).Nodup) (get : g 0 = some n)
    (hground : n.IsGround) (h : g.Laid 0 .right n.right t slots) :
    ∃ g', g.recount 0 = some g' ∧ g'.Grown t slots ∧ g'.Spine [] [] 0 .right n.right ∧
      ∀ i, i ≠ 0 → g' i = g i := by
  have h0 : 0 ∉ slots := (List.nodup_cons.1 hn).1
  have hv := h.visibleOf
  have hh := h.heightOf
  have hstored : g.recount 0 = some fun i => if i = 0 then
      some (n.store (0 + (0 + t.visible)) (0 + max 0 t.height)) else g i := by
    simp only [Nodes.recount, modify, get, hground.left, hground.ground, hv, hh,
      Option.bind_eq_bind, Option.bind_some, if_true, Option.map_some]
    rfl
  rw [Nat.zero_add, Nat.zero_add, Nat.zero_add, Nat.zero_max] at hstored
  have hground' : (n.store t.visible t.height).IsGround :=
    ⟨hground.ground, hground.entry, hground.left⟩
  refine ⟨_, hstored, ⟨hn, _, if_pos rfl, hground', rfl, rfl, ?_⟩, ⟨_, if_pos rfl, hground', .nil⟩,
    fun i hi => if_neg hi⟩
  exact h.congr fun i hi => if_neg (show i ≠ 0 from fun he => h0 (he ▸ hi))

/-- Balancing from a node up to the ground is climbing in the tree. -/
theorem Spine.rebalances (h : g.Spine above ribs parent s b) (ht : g.Laid parent s b t slots)
    (hn : (0 :: weaveAll ribs slots).Nodup) (hm : Mendable above t) :
    ∃ g', g.rebalance parent = some (g', (climb above t).rotations) ∧
      g'.Grown (climb above t).tree (weaveAll ribs slots) := by
  induction above generalizing g ribs parent s b t slots with
  | nil =>
    obtain ⟨n, get, hground, hp⟩ := h
    obtain ⟨rfl, rfl, rfl, rfl⟩ := hp.eq_of_nil
    obtain ⟨g', hg', hgrown, -⟩ := Grown.recount hn get hground ht
    refine ⟨g', ?_, hgrown⟩
    rw [Nodes.rebalance, if_pos rfl, hg']
    rfl
  | cons c cs ih =>
    obtain ⟨m, get₀, hground, hp⟩ := h
    cases hp with
    | @cons _ ribs parent' _ s' n far _ up get holds sibling =>
      obtain ⟨hsound, hsib, hle, hge, hrest⟩ := hm
      rw [weaveAll_cons] at hn ⊢
      obtain ⟨hweave, hribs, hapart⟩ := apart_of_nodup hn
      have hspine : g.Spine cs ribs parent' s' (some parent) := ⟨m, get₀, hground, up⟩
      have hung : g.Hung parent' s' parent (c.plug t) (c.side.weave slots parent far) :=
        ⟨Laid.plug c get holds ht sibling, hweave, fun hi => hapart _ hi hspine.parent_mem,
          hspine.linked⟩
      obtain ⟨g₁, up', hg₁, hup, hu⟩ := hung.mend hsound hsib hle hge
      obtain ⟨top, htop, hparent⟩ := hu.hung.laid.exists_top
      have hspine' : up'.nodes.Spine cs ribs parent' s' (some up'.top) :=
        hspine.relink hribs fun i hi => hu.outside i fun hw => hapart i hw hi
      obtain ⟨g', hg', hgrown⟩ := ih hspine' hu.hung.laid hn hrest
      have hne : parent ≠ 0 := fun he =>
        hapart parent (Side.mem_weave.2 (.inr (.inl rfl))) (he ▸ List.mem_cons_self)
      refine ⟨g', ?_, hgrown⟩
      rw [Nodes.rebalance, if_neg hne, hg₁]
      simp only [Option.bind_eq_bind, Option.bind_some, hup, htop, hparent, Option.getD_some, hg',
        hu.rotations]
      rfl

/-! ## A row more -/

theorem Spine.link (h : g.Spine above ribs parent s b) (hn : (0 :: weaveAll ribs []).Nodup)
    (b' : Option Nat) (hb : ∀ i, b' = some i → i ∉ 0 :: weaveAll ribs [] ∧ (g i).isSome) :
    g.link parent s b' = some (g.linked parent s b') ∧
      (g.linked parent s b').Spine above ribs parent s b' := by
  have hmem := h.parent_mem
  obtain ⟨q, hq, -⟩ := h.linked
  refine ⟨link_eq (by simp [hq]) fun i hi => ⟨?_, (hb i hi).2⟩, h.relink hn fun i hi => ?_⟩
  · rintro rfl
    exact (hb _ hi).1 hmem
  · have hne : b' ≠ some i := fun he => (hb i he).1 hi
    show (if i = parent then _ else if b' = some i then _ else g i) = _
    rw [if_neg hne]

theorem Hangs.attach {all : List Nat} {i : Nat} {e : Entry} (hn : (0 :: all).Nodup)
    (h : g.Hangs all above .nil parent s b) (hs : (plugAll above .nil).Sound)
    (hi : i ∉ 0 :: all) (get : g i = some (.fresh e)) :
    ∃ g₁ g' all', g.link parent s (some i) = some g₁ ∧
      g₁.rebalance i = some (g', (Tree.plant above e).rotations) ∧
      g'.Grown (Tree.plant above e).tree all' ∧ all'.Perm (i :: all) := by
  obtain ⟨ribs, slots, hspine, hl, rfl⟩ := h
  cases hl
  have hribs := hspine.parent_mem
  obtain ⟨hlink, hspine'⟩ := hspine.link hn (some i) fun j hj => by
    cases hj
    exact ⟨hi, by simp [get]⟩
  have hne : i ≠ parent := fun he => hi (he ▸ hribs)
  have hnode : g.linked parent s (some i) i = some ((Node.fresh e).hang parent s) := by
    simp [linked, hne, get]
  have hholds : ((Node.fresh e).hang parent s).Holds ⟨e, 0, 0⟩ parent s := ⟨rfl, rfl, rfl, rfl⟩
  have hleaf := hspine'.cons ⟨.left, ⟨e, 0, 0⟩, .nil⟩ hnode hholds (.nil i .right)
  have hnodup : (0 :: weaveAll (⟨.left, i, []⟩ :: ribs) []).Nodup := by
    obtain ⟨h0, hn⟩ := List.nodup_cons.1 hn
    obtain ⟨hi0, hir⟩ := not_or.1 (List.mem_cons.not.1 hi)
    rw [List.nodup_cons, nodup_weaveAll_cons, mem_weaveAll_cons]
    simp [Ne.symm hi0, h0, hn, hir]
  have hplant : climb (⟨.left, ⟨e, 0, 0⟩, .nil⟩ :: above) .nil = Tree.plant above e := by
    simp [climb, Crumb.balance, Tree.balance, Tree.height, Tree.plant]
  have hm : Mendable (⟨.left, ⟨e, 0, 0⟩, .nil⟩ :: above) .nil := by
    refine ⟨Tree.sound_nil, Tree.sound_nil, by simp, by simp, ?_⟩
    refine mendable_of_near hs (u := .make .nil e .nil) ?_ ?_
    · exact Tree.sound_nil.make Tree.sound_nil (.refl _) e
    · simp [Tree.Near, Tree.depth]
  obtain ⟨g', hg', hgrown⟩ := hleaf.rebalances (.nil i .left) hnodup hm
  rw [hplant] at hg' hgrown
  exact ⟨_, g', _, hlink, hg', hgrown, weaveAll_perm ribs [i]⟩

end Nodes

end LiveTable
