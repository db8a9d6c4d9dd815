import LiveTable.Proofs.Linked.Edit
import LiveTable.Proofs.Linked.Walk

/-!
# Taking a node out of the links

A node with one subtree at most is replaced by it. A node with two is replaced by the row before it,
the last one on its left side, whose own place is taken by what is below it (`Spine.splice`). In
either case the tree with one cell less is the end of a climb (`Focus.remove_of_nil`,
`Focus.remove_of_last`), and the climb starts where balancing along links does.
-/

namespace LiveTable

/-! ## Removal as a climb -/

theorem plugAll_append (below above : List Crumb) (t : Tree) :
    plugAll (below ++ above) t = plugAll above (plugAll below t) := List.foldl_append

theorem Tree.exists_last {t : Tree} (h : t ≠ .nil) :
    ∃ below a e, (∀ c ∈ below, c.side = .right) ∧ t = plugAll below (.node a e .nil) := by
  induction t with
  | nil => exact absurd rfl h
  | node l c r _ ihr =>
    cases r with
    | nil => exact ⟨[], l, c, by simp, rfl⟩
    | node =>
      obtain ⟨below, a, e, hside, hr⟩ := ihr (by simp)
      refine ⟨below ++ [⟨.right, c, l⟩], a, e, fun d hd => ?_, ?_⟩
      · rcases List.mem_append.1 hd with hd | hd
        · exact hside d hd
        · cases List.mem_singleton.1 hd
          rfl
      · rw [plugAll_append, ← hr]
        rfl

/-- Taking out the last row is a climb along the right sides above it. -/
theorem Tree.popLast?_plugAll {below : List Crumb} {t : Tree} {e : Entry} {rest : Rebuilt}
    (hside : ∀ c ∈ below, c.side = .right) (h : t.popLast? = some (e, rest)) :
    (plugAll below t).popLast? = some (e, ⟨(climb below rest.tree).tree,
      rest.rotations + (climb below rest.tree).rotations⟩) := by
  induction below generalizing t rest with
  | nil => simpa [plugAll, climb] using h
  | cons c cs ih =>
    obtain ⟨side, cell, sibling⟩ := c
    cases hside _ List.mem_cons_self
    have hstep : (Tree.node sibling cell t).popLast? = some (e,
        ⟨(balance sibling cell.toEntry rest.tree).tree,
          rest.rotations + (balance sibling cell.toEntry rest.tree).rotations⟩) := by
      simp [Tree.popLast?, h]
    have := ih (fun d hd => hside d (List.mem_cons_of_mem _ hd)) hstep
    simp only [Nat.add_assoc] at this
    exact this

namespace Focus

variable {f : Focus} {below : List Crumb} {a : Tree} {e : Cell}

/-- Where one of the two sides is empty the other one takes the place. -/
theorem remove_of_nil (h : f.left = .nil ∨ f.right = .nil) :
    ∃ side, f.child side.other = .nil ∧ f.remove = climb f.above (f.child side) := by
  obtain ⟨l, c, r, above⟩ := f
  cases r with
  | nil => exact ⟨.left, rfl, by simp [remove, Tree.merge, child]⟩
  | node rl rc rr =>
    obtain rfl | h := h
    · exact ⟨.right, rfl, by simp [remove, Tree.merge, Tree.popLast?, child]⟩
    · cases h

/-- Where neither side is empty the row before takes the place, with a climb from below it. -/
theorem remove_of_last (hside : ∀ c ∈ below, c.side = .right)
    (hl : f.left = plugAll below (.node a e .nil)) (hr : f.right ≠ .nil) :
    f.remove = climb (below ++ ⟨.left, e, f.right⟩ :: f.above) a ∧
      f.left.popLast? = some (e.toEntry, climb below a) := by
  obtain ⟨l, c, r, above⟩ := f
  simp only at hl hr
  have hpop : l.popLast? = some (e.toEntry, climb below a) := by
    have hlast : (Tree.node a e .nil).popLast? = some (e.toEntry, ⟨a, 0⟩) := rfl
    rw [hl, Tree.popLast?_plugAll hside hlast]
    simp
  refine ⟨?_, hpop⟩
  cases r with
  | nil => exact absurd rfl hr
  | node rl rc rr =>
    rw [climb_append]
    simp [remove, Tree.merge, hpop, climb, Crumb.balance, Nat.add_assoc]

end Focus

/-- The cells on the way up to a row that is taken out can be mended. -/
theorem mendable_of_nil {f : Focus} {side : Side} (hs : f.plug.Sound)
    (h : f.child side.other = .nil) : Mendable f.above (f.child side) := by
  have hf : f.subtree.Sound := sound_of_plugAll f.above hs
  refine mendable_of_near hs (t := f.subtree) ?_ ?_
  · cases side
    · exact hf.left
    · exact hf.right
  · have hn := hf.near
    obtain ⟨l, c, r, above⟩ := f
    cases side <;> simp only [Focus.child, Side.other, Focus.subtree] at h hn ⊢ <;> subst h <;>
      simp only [Tree.Near, Tree.depth] at hn ⊢ <;> omega

theorem mendable_of_last {f : Focus} {below : List Crumb} {a : Tree} {e : Cell}
    (hs : f.plug.Sound) (hside : ∀ c ∈ below, c.side = .right)
    (hl : f.left = plugAll below (.node a e .nil)) (hr : f.right ≠ .nil) :
    Mendable (below ++ ⟨.left, e, f.right⟩ :: f.above) a := by
  have hf : f.subtree.Sound := sound_of_plugAll f.above hs
  have hn : f.left.Near f.right := hf.near
  obtain ⟨-, hpop⟩ := Focus.remove_of_last hside hl hr
  obtain ⟨hsound, h1, h2⟩ := hf.left.popLast? hpop
  obtain ⟨hmerge, hnear⟩ := Tree.Sound.merge hf
  have hlast : (Tree.node a e .nil).Sound := sound_of_plugAll below (hl ▸ hf.left)
  have ha : (Tree.node a e .nil).Near a := by
    have := hlast.near
    simp only [Tree.Near, Tree.depth] at this ⊢
    omega
  rw [mendable_append]
  have hle : (climb below a).tree.depth ≤ f.right.depth + 2 := by omega
  have hge : f.right.depth ≤ (climb below a).tree.depth + 2 := by omega
  refine ⟨mendable_of_near (hl ▸ hf.left) hlast.left ha, hsound, hf.right, hle, hge, ?_⟩
  have hjoin : (Tree.merge f.left f.right).tree =
      (Tree.balance (climb below a).tree e.toEntry f.right).tree := by
    unfold Tree.merge
    split
    · exact absurd ‹_› hr
    · simp [hpop]
  rw [hjoin] at hmerge hnear
  exact mendable_of_near hs hmerge hnear

namespace Nodes

variable {g : Nodes} {above below : List Crumb} {ribs ribs' : List Rib} {parent slot last q : Nat}
  {s s' : Side} {b b' right : Option Nat} {a r t : Tree} {all as rs slots : List Nat} {e : Cell}

/-! ## The row before takes the place -/

theorem linked_of_ne {i : Nat} (hp : i ≠ parent) (hb : b ≠ some i) :
    g.linked parent s b i = g i := by
  rw [linked, if_neg hp, if_neg hb]

theorem linked_self : g.linked parent s b parent = (g parent).map (·.withChild s b) := if_pos rfl

theorem Laid.linked (h : g.Laid q s' b t slots) (hn : slots.Nodup) (hp : parent ∉ slots) :
    (g.linked parent s b).Laid parent s b t slots := by
  refine h.hang hn fun i hi => ?_
  rw [Nodes.linked, if_neg (show i ≠ parent from fun he => hp (he ▸ hi))]

/-- A node without a place takes one: it is linked with what is to be on its right side, and then
with the end of a spine. On its left side there already hangs a path. -/
theorem Spine.splice {m : Node} (h : g.Spine above ribs parent s b) (get : g last = some m)
    (hcell : m.cell = e) (hground : m.ground = false)
    (hp : g.Path last .left m.left below ribs' q s' b') (ha : g.Laid q s' b' a as)
    (hr : g.Laid slot .right right r rs)
    (hn : (0 :: weaveAll (ribs' ++ ⟨.left, last, rs⟩ :: ribs) as).Nodup)
    (hm : Mendable (below ++ ⟨.left, e, r⟩ :: above) a) :
    ∃ g₁ g₂ g₃, g.link last .right right = some g₁ ∧ g₁.link parent s (some last) = some g₂ ∧
      g₂.rebalance q = some (g₃, (climb (below ++ ⟨.left, e, r⟩ :: above) a).rotations) ∧
      g₃.Grown (climb (below ++ ⟨.left, e, r⟩ :: above) a).tree
        (weaveAll (ribs' ++ ⟨.left, last, rs⟩ :: ribs) as) := by
  have hall := hn
  rw [weaveAll_append, weaveAll_cons] at hall
  obtain ⟨hweave, hribs, hbelow⟩ := apart_of_nodup hall
  obtain ⟨-, hrs, hlast, hlastr, hasr⟩ := Side.nodup_weave.1 hweave
  have hapart {i : Nat} (hi : i ∈ weaveAll ribs' as ∨ i = last ∨ i ∈ rs) :
      i ∉ 0 :: weaveAll ribs [] := hbelow i (Side.mem_weave.2 hi)
  have hlastp : last ≠ parent := fun he => hapart (.inr (.inl rfl)) (he ▸ h.parent_mem)
  -- its right side
  have h₁ : g.link last .right right = some (g.linked last .right right) :=
    link_eq (by simp [get]) fun i hi =>
      ⟨fun he => hlastr (he ▸ hr.mem hi), hr.live (hr.mem hi)⟩
  have hsame₁ {i : Nat} (hne : i ≠ last) (hi : i ∉ rs) : g.linked last .right right i = g i :=
    linked_of_ne hne fun he => hi (hr.mem he)
  have hspine₁ : (g.linked last .right right).Spine above ribs parent s b :=
    h.congr fun i hi => hsame₁ (fun he => hapart (.inr (.inl he)) hi)
      fun hir => hapart (.inr (.inr hir)) hi
  -- its place
  obtain ⟨h₂, hspine₂⟩ := hspine₁.link hribs (some last) fun i hi => by
    cases hi
    exact ⟨hapart (.inr (.inl rfl)), by rw [isSome_linked, get]; rfl⟩
  have hsame₂ {i : Nat} (hi : i ∈ weaveAll ribs' as ∨ i ∈ rs) :
      (g.linked last .right right).linked parent s (some last) i =
        g.linked last .right right i := by
    have hi' : i ∈ weaveAll ribs' as ∨ i = last ∨ i ∈ rs := hi.imp_right .inr
    refine linked_of_ne (fun he => hapart hi' (he ▸ h.parent_mem)) ?_
    rintro ⟨⟩
    exact hi.elim hlast hlastr
  have hsame {i : Nat} (hi : i ∈ weaveAll ribs' as) :
      (g.linked last .right right).linked parent s (some last) i = g i :=
    (hsame₂ (.inl hi)).trans (hsame₁ (fun he => hlast (he ▸ hi)) (hasr hi))
  have hnode : (g.linked last .right right).linked parent s (some last) last =
      some ((m.withChild .right right).hang parent s) := by
    rw [Nodes.linked, if_neg hlastp, if_pos rfl, linked_self, get]
    rfl
  have hright := (hr.linked hrs hlastr).congr fun i hi => hsame₂ (.inr hi)
  have hcons := hspine₂.cons ⟨.left, e, r⟩ hnode ⟨hcell, hground, rfl, rfl⟩ hright
  have hpath := hcons.append (hp.congr fun i hi => hsame (mem_weaveAll.2 (.inr hi)))
  obtain ⟨g₃, h₃, hgrown⟩ :=
    hpath.rebalances (ha.congr fun i hi => hsame (mem_weaveAll.2 (.inl hi))) hn hm
  exact ⟨_, _, g₃, h₁, h₂, h₃, hgrown⟩

theorem Path.live {top : Nat} {side : Side} {o : Option Nat}
    (h : g.Path top side o above ribs parent s b) {i : Nat} (hi : i ∈ weaveAll ribs []) :
    (g i).isSome := by
  induction h with
  | nil => simp at hi
  | cons c up get holds sibling ih =>
    rcases mem_weaveAll_cons.1 hi with rfl | hi | hi
    · simp [get]
    · exact sibling.live hi
    · exact ih hi

/-- The last row below a path leaves its place to what is below it, and takes the path below itself
instead. -/
theorem Path.loosen {m : Node} {left : Nat}
    (h : g.Path slot .left (some left) below ribs q .right (some last)) (hne : below ≠ [])
    (get : g last = some m) (ha : g.Laid last .left m.left a as)
    (hn : (weaveAll ribs (as ++ [last])).Nodup) :
    ∃ g₁ g₂, g.link q .right m.left = some g₁ ∧ g₁.link last .left (some left) = some g₂ ∧
      g₂.Path last .left (some left) below ribs q .right m.left ∧ g₂.Laid q .right m.left a as ∧
      g₂ last = some (m.withChild .left (some left)) ∧
      ∀ i ∉ weaveAll ribs (as ++ [last]), g₂ i = g i := by
  obtain ⟨hends, hribs, hdisj⟩ := nodup_weaveAll.1 hn
  obtain ⟨has, -, hasl⟩ := List.nodup_append'.1 hends
  have hlast : last ∉ weaveAll ribs [] := fun hi => hdisj (by simp) hi
  have hasr {i : Nat} (hi : i ∈ as) : i ∉ weaveAll ribs [] := hdisj (by simp [hi])
  have hlasta : last ∉ as := fun hi => hasl hi (by simp)
  have hq : q ∈ weaveAll ribs [] := h.parent_mem.resolve_left fun he => hne he.2
  have hleft : left ∈ weaveAll ribs [] := h.head_mem hne
  -- what is below the last row
  have h₁ : g.link q .right m.left = some (g.linked q .right m.left) :=
    link_eq (h.live hq) fun i hi => ⟨fun he => hasr (ha.mem hi) (he ▸ hq), ha.live (ha.mem hi)⟩
  have hpath₁ : (g.linked q .right m.left).Path slot .left (some left) below ribs q .right
      m.left := h.relink hne hribs fun i hi => by
    have hi' : m.left ≠ some i := fun he => hasr (ha.mem he) hi
    rw [Nodes.linked, if_neg hi']
  have ha₁ := ha.linked (s := .right) has fun hi => hasr hi hq
  have hlast₁ : g.linked q .right m.left last = some m :=
    (linked_of_ne (show last ≠ q from fun he => hlast (he ▸ hq))
      fun he => hlasta (ha.mem he)).trans get
  -- and the path
  have h₂ : (g.linked q .right m.left).link last .left (some left) =
      some ((g.linked q .right m.left).linked last .left (some left)) := by
    refine link_eq (by simp [hlast₁]) fun i hi => ?_
    cases hi
    exact ⟨fun he => hlast (he ▸ hleft), by rw [isSome_linked]; exact h.live hleft⟩
  refine ⟨_, _, h₁, h₂, hpath₁.hang hne hribs fun j hj => ?_, ha₁.congr fun i hi => ?_, ?_,
    fun i hi => ?_⟩
  · rw [Nodes.linked, if_neg (show j ≠ last from fun he => hlast (he ▸ hj))]
    simp only [Option.some.injEq, eq_comm]
  · refine linked_of_ne (fun he => hlasta (he ▸ hi)) ?_
    rintro ⟨⟩
    exact hasr hi hleft
  · rw [linked_self, hlast₁]
    rfl
  · rw [mem_weaveAll, List.mem_append, List.mem_singleton, not_or, not_or] at hi
    obtain ⟨⟨hia, hil⟩, hir⟩ := hi
    rw [linked_of_ne hil (by rintro ⟨⟩; exact hir hleft),
      linked_of_ne (show i ≠ q from fun he => hir (he ▸ hq)) fun he => hia (ha.mem he)]

theorem Path.exists_side {top : Nat} {side : Side} {o : Option Nat}
    (h : g.Path top side o above ribs parent s b) (hne : above ≠ []) : ∃ c ∈ above, s = c.side := by
  cases h with
  | nil => exact absurd rfl hne
  | cons c => exact ⟨c, List.mem_cons_self, rfl⟩

/-- The last row on the left side of a node is made ready to take its place: what is below it hangs
at the end of the path that is now on its own left side. Where it hangs on the node itself, nothing
has to be done. -/
theorem Path.ready {m : Node} {left : Nat}
    (h : g.Path slot .left (some left) below ribs q s (some last))
    (hside : ∀ c ∈ below, c.side = .right) (get : g last = some m) (holds : m.Holds e q s)
    (ha : g.Laid last .left m.left a as) (hn : (weaveAll ribs (as ++ [last])).Nodup)
    (hslot : slot ∉ weaveAll ribs (as ++ [last])) :
    ∃ g₁ m' s₁ b₁, (if last = left then some g else
        (g.link q .right m.left).bind (·.link last .left (some left))) = some g₁ ∧
      g₁ last = some m' ∧ m'.cell = e ∧ m'.ground = false ∧
      g₁.Path last .left m'.left below ribs (if q = slot then last else q) s₁ b₁ ∧
      g₁.Laid (if q = slot then last else q) s₁ b₁ a as ∧
      ∀ i ∉ weaveAll ribs (as ++ [last]), g₁ i = g i := by
  by_cases hb : below = []
  · subst hb
    obtain ⟨rfl, rfl, rfl, he⟩ := h.eq_of_nil
    cases he
    refine ⟨g, m, .left, m.left, if_pos rfl, get, holds.cell, holds.ground, ?_, ?_,
      fun i _ => rfl⟩
    · rw [if_pos rfl]
      exact .nil
    · rw [if_pos rfl]
      exact ha
  · obtain ⟨c, hc, rfl⟩ := h.exists_side hb
    rw [hside c hc] at h
    obtain ⟨g₁, g₂, h₁, h₂, hpath, ha', get', hsame⟩ := h.loosen hb get ha hn
    have hq : q ≠ slot := by
      rintro rfl
      exact hslot (mem_weaveAll.2 (.inr (h.parent_mem.resolve_left fun he => hb he.2)))
    have hll : last ≠ left := by
      rintro rfl
      exact (nodup_weaveAll.1 hn).2.2 (by simp) (h.head_mem hb)
    refine ⟨g₂, m.withChild .left (some left), .right, m.left, ?_, get', holds.cell, holds.ground,
      ?_, ?_, hsame⟩
    · rw [if_neg hll, h₁, Option.bind_some, h₂]
    · rw [if_neg hq]
      exact hpath
    · rw [if_neg hq]
      exact ha'

/-! ## The two ways -/

/-- The last node along a path that keeps to one side. -/
theorem Path.outermost {top i : Nat} {side : Side} {o : Option Nat}
    (h : g.Path top s (some i) below ribs q s' o) (hside : ∀ c ∈ below, c.side = side)
    (ho : o = some last) : g.outermost side i = g.outermost side last := by
  induction h generalizing last with
  | nil =>
    cases ho
    rfl
  | @cons _ _ _ j _ n _ c up get holds sibling ih =>
    rw [ih (fun d hd => hside d (List.mem_cons_of_mem _ hd)) rfl, Nodes.outermost, get]
    cases hside c List.mem_cons_self
    simp only [Option.bind_eq_bind, Option.bind_some, ho]

theorem nodup_of_perm_cons {all' : List Nat} (hn : (0 :: all).Nodup)
    (hperm : all.Perm (slot :: all')) : slot ≠ 0 ∧ (0 :: all').Nodup := by
  have h := (hperm.cons 0).nodup_iff.1 hn
  simp only [List.nodup_cons, List.mem_cons, not_or] at h ⊢
  exact ⟨fun he => h.1.1 he.symm, h.1.2, h.2.2⟩

/-- The slots where the only subtree of a node takes its place. -/
theorem lift_perm (ribs : List Rib) (side : Side) (near : List Nat) (slot : Nat) :
    (weaveAll ribs (side.weave near slot [])).Perm (slot :: weaveAll ribs near) := by
  refine List.perm_iff_count.2 fun i => ?_
  rw [count_weaveAll, List.count_cons, count_weaveAll ribs near]
  cases side <;> simp only [Side.weave, List.count_append, List.count_cons, List.count_nil] <;>
    omega

/-- The slots where the last row on the left side of a node takes its place. -/
theorem splice_perm (ribs ribs' : List Rib) (as rs : List Nat) (slot last : Nat) :
    (weaveAll ribs (weaveAll ribs' (as ++ [last]) ++ slot :: rs)).Perm
      (slot :: weaveAll (ribs' ++ ⟨.left, last, rs⟩ :: ribs) as) := by
  refine List.perm_iff_count.2 fun i => ?_
  rw [weaveAll_append, weaveAll_cons, List.count_cons, count_weaveAll ribs,
    count_weaveAll ribs (Rib.weave _ _), Rib.weave, Side.weave, List.count_append,
    List.count_append, count_weaveAll ribs', count_weaveAll ribs' as]
  simp only [List.count_append, List.count_cons, List.count_nil]
  omega

theorem Laid.of_nil (h : g.Laid parent s b .nil slots) : b = none ∧ slots = [] := by
  cases h
  exact ⟨rfl, rfl⟩

theorem Laid.exists_link (h : g.Laid parent s b t slots) (ht : t ≠ .nil) : ∃ i, b = some i := by
  cases h with
  | nil => exact absurd rfl ht
  | node => exact ⟨_, rfl⟩

theorem unlink_of_none {n : Node} (side : Side) (get : g slot = some n)
    (hnone : n.child side.other = none) :
    g.unlink slot = (g.link (n.parent.getD 0) n.side (n.child side)).bind
      (·.rebalance (n.parent.getD 0)) := by
  rw [Nodes.unlink, get]
  cases side with
  | left =>
    have hnone : n.right = none := hnone
    simp only [Option.bind_eq_bind, Option.bind_some, hnone, Node.child]
    cases n.left <;> rfl
  | right =>
    have hnone : n.left = none := hnone
    simp only [Option.bind_eq_bind, Option.bind_some, hnone, Node.child]
    cases n.right <;> rfl

theorem unlink_of_last {n m : Node} {left right : Nat} (get : g slot = some n)
    (hleft : n.left = some left) (hright : n.right = some right)
    (hout : g.outermost .right left = some last) (getLast : g last = some m) :
    g.unlink slot =
      (if last = left then some g else
        (g.link (m.parent.getD 0) .right m.left).bind (·.link last .left (some left))).bind fun g =>
      (g.link last .right (some right)).bind fun g =>
      (g.link (n.parent.getD 0) n.side (some last)).bind
        (·.rebalance (if m.parent.getD 0 = slot then last else m.parent.getD 0)) := by
  rw [Nodes.unlink, get]
  simp only [Option.bind_eq_bind, Option.bind_some, hleft, hright, hout, getLast]
  split
  · rfl
  · rw [Option.bind_assoc]

theorem At.unlink_of_nil {f : Focus} (hn : (0 :: all).Nodup) (h : g.At all f slot)
    (hs : f.plug.Sound) (hnil : f.left = .nil ∨ f.right = .nil) :
    ∃ g' all', g.unlink slot = some (g', f.remove.rotations) ∧ g'.Grown f.remove.tree all' ∧
      all.Perm (slot :: all') := by
  obtain ⟨parent, s, ribs, slots, hspine, hl, rfl⟩ := h
  obtain ⟨side, hother, hremove⟩ := Focus.remove_of_nil hnil
  have hplug : f.subtree = (f.crumb side).plug (f.child side) := by
    obtain ⟨l, c, r, above⟩ := f
    cases side <;> rfl
  rw [hplug] at hl
  obtain ⟨_, n, near, far, hi, rfl, get, holds, hnear, hfar⟩ := hl.exists_of_plug
  cases hi
  rw [show (f.crumb side).sibling = f.child side.other from rfl, hother] at hfar
  obtain ⟨hnone, rfl⟩ := hfar.of_nil
  have hperm := lift_perm ribs side near slot
  obtain ⟨-, hn'⟩ := nodup_of_perm_cons hn hperm
  obtain ⟨hnodup, hribs, hapart⟩ := apart_of_nodup hn'
  obtain ⟨hlink, hspine'⟩ := hspine.link hribs (n.child side) fun i hi =>
    ⟨hapart i (hnear.mem hi), hnear.live (hnear.mem hi)⟩
  obtain ⟨g', hg', hgrown⟩ := hspine'.rebalances
    (hnear.linked hnodup fun hi => hapart _ hi hspine.parent_mem) hn' (mendable_of_nil hs hother)
  refine ⟨g', weaveAll ribs near, ?_, hremove ▸ hgrown, hperm⟩
  rw [unlink_of_none side get hnone, holds.parent, holds.side, Option.getD_some, hlink,
    Option.bind_some, hg', hremove]

theorem At.unlink_of_last {f : Focus} (hn : (0 :: all).Nodup) (h : g.At all f slot)
    (hs : f.plug.Sound) (hleft : f.left ≠ .nil) (hright : f.right ≠ .nil) :
    ∃ g' all', g.unlink slot = some (g', f.remove.rotations) ∧ g'.Grown f.remove.tree all' ∧
      all.Perm (slot :: all') := by
  obtain ⟨parent, s, ribs, slots, hspine, hl, rfl⟩ := h
  obtain ⟨below, a, e, hside, hlast⟩ := Tree.exists_last hleft
  have hm := mendable_of_last hs hside hlast hright
  obtain ⟨hremove, -⟩ := Focus.remove_of_last hside hlast hright
  cases hl with
  | @node _ _ _ n _ _ _ ls rs get holds hl hr =>
    obtain ⟨left, hleft⟩ := hl.exists_link hleft
    obtain ⟨right, hright⟩ := hr.exists_link hright
    rw [hlast, hleft] at hl
    rw [hright] at hr
    obtain ⟨ribs', q, s', b, ends, hp, hends, rfl⟩ := hl.exists_path
    cases hends with
    | @node _ last _ m _ _ _ as _ getLast holdsLast ha hnone =>
      obtain ⟨hmr, rfl⟩ := hnone.of_nil
      have hperm := splice_perm ribs ribs' as rs slot last
      obtain ⟨-, hn'⟩ := nodup_of_perm_cons hn hperm
      obtain ⟨hweave, -, hapart⟩ := apart_of_nodup hn
      have hdisj := List.nodup_append'.1 hweave
      have hout : g.outermost .right left = some last := by
        rw [hp.outermost hside rfl, Nodes.outermost, getLast]
        simp [Node.child, hmr]
      obtain ⟨g₁, m', s₁, b₁, h₁, getLast', hcell, hground, hpath, ha', hsame⟩ :=
        hp.ready hside getLast holdsLast ha hdisj.1 fun hl => hdisj.2.2 hl List.mem_cons_self
      have hspine' : g₁.Spine f.above ribs parent s (some slot) := hspine.congr fun i hi =>
        hsame i fun hl => hapart i (List.mem_append_left _ hl) hi
      have hr' : g₁.Laid slot .right (some right) f.right rs := hr.congr fun i hi =>
        hsame i fun hl => hdisj.2.2 hl (List.mem_cons_of_mem _ hi)
      obtain ⟨g₂, g₃, g₄, h₂, h₃, h₄, hgrown⟩ :=
        hspine'.splice getLast' hcell hground hpath ha' hr' hn' hm
      refine ⟨g₄, _, ?_, hremove ▸ hgrown, hperm⟩
      rw [unlink_of_last get hleft hright hout getLast]
      simp only [holdsLast.parent, holds.parent, holds.side, Option.getD_some, Option.bind_some, h₁,
        h₂, h₃, h₄, hremove]

/-- Taking out the node of a row does to the links what taking out the row does to the tree. -/
theorem At.unlink {f : Focus} (hn : (0 :: all).Nodup) (h : g.At all f slot) (hs : f.plug.Sound) :
    ∃ g' all', g.unlink slot = some (g', f.remove.rotations) ∧ g'.Grown f.remove.tree all' ∧
      all.Perm (slot :: all') := by
  by_cases hnil : f.left = .nil ∨ f.right = .nil
  · exact h.unlink_of_nil hn hs hnil
  · obtain ⟨hleft, hright⟩ := not_or.1 hnil
    exact h.unlink_of_last hn hs hleft hright

end Nodes

end LiveTable
