import LiveTable.Proofs.Linked.Edit
import LiveTable.Proofs.Linked.Rows
import LiveTable.Proofs.Linked.Walk
import LiveTable.Proofs.Tree.Shape

/-!
# Hiding and showing rows along links

Counting anew on the way up leaves every row in its place and the shape of the tree as it is
(`Spine.recountUp`); only the numbers of the cells above change (`recounted`). A walk that hides or
shows rows as it goes therefore meets the rows that it would have met in the tree before, and leaves
the tree of that shape with the changed rows in it (`Reaches.markWhile`).
-/

namespace LiveTable

/-! ## Crumbs counted anew -/

/-- The crumb with the numbers that it has above a subtree. -/
def Crumb.recount (c : Crumb) (t : Tree) : Crumb :=
  match c.side with
  | .left => { c with cell := ⟨c.cell.toEntry, 1 + max t.height c.sibling.height,
      c.cell.weight + (t.visible + c.sibling.visible)⟩ }
  | .right => { c with cell := ⟨c.cell.toEntry, 1 + max c.sibling.height t.height,
      c.cell.weight + (c.sibling.visible + t.visible)⟩ }

/-- The crumbs above a subtree, all of them counted anew. -/
def recounted : List Crumb → Tree → List Crumb
  | [], _ => []
  | c :: above, t => c.recount t :: recounted above (c.join t)

theorem Crumb.plug_recount (c : Crumb) (t : Tree) : (c.recount t).plug t = c.join t := by
  obtain ⟨side, cell, sibling⟩ := c
  cases side <;> rfl

@[simp] theorem Crumb.side_recount (c : Crumb) (t : Tree) : (c.recount t).side = c.side := by
  obtain ⟨side, cell, sibling⟩ := c
  cases side <;> rfl

@[simp] theorem Crumb.sibling_recount (c : Crumb) (t : Tree) :
    (c.recount t).sibling = c.sibling := by
  obtain ⟨side, cell, sibling⟩ := c
  cases side <;> rfl

theorem Crumb.onward_recount (c : Crumb) (t : Tree) (side : Side) :
    (c.recount t).onward side = c.onward side := by
  obtain ⟨side', cell, sibling⟩ := c
  cases side' <;> rfl

theorem rowsAbove_recounted (side : Side) (above : List Crumb) (t : Tree) :
    rowsAbove side (recounted above t) = rowsAbove side above := by
  induction above generalizing t with
  | nil => rfl
  | cons c cs ih => rw [recounted, rowsAbove_cons, rowsAbove_cons, c.onward_recount, ih]

theorem Crumb.shape_join (c : Crumb) (t : Tree) : (c.join t).shape = (c.plug t).shape := by
  obtain ⟨side, cell, sibling⟩ := c
  cases side <;> rfl

theorem shape_recounted (above : List Crumb) (t : Tree) :
    (plugAll (recounted above t) t).shape = (plugAll above t).shape := by
  induction above generalizing t with
  | nil => rfl
  | cons c cs ih =>
    show (plugAll (recounted cs (c.join t)) ((c.recount t).plug t)).shape =
      (plugAll cs (c.plug t)).shape
    rw [c.plug_recount, ih]
    exact shape_plugAll_congr cs (c.shape_join t)

theorem counted_of_plugAll (above : List Crumb) {t : Tree} (h : (plugAll above t).Counted) :
    t.Counted ∧ ∀ c ∈ above, c.sibling.Counted := by
  induction above generalizing t with
  | nil => exact ⟨h, by simp⟩
  | cons c cs ih =>
    obtain ⟨hc, hrest⟩ := ih h
    have hboth : t.Counted ∧ c.sibling.Counted := by
      obtain ⟨side, cell, sibling⟩ := c
      cases side
      · exact ⟨hc.1, hc.2.1⟩
      · exact ⟨hc.2.1, hc.1⟩
    exact ⟨hboth.1, by simpa using ⟨hboth.2, hrest⟩⟩

theorem counted_recounted {above : List Crumb} {t : Tree} (ht : t.Counted)
    (h : ∀ c ∈ above, c.sibling.Counted) : (plugAll (recounted above t) t).Counted := by
  induction above generalizing t with
  | nil => exact ht
  | cons c cs ih =>
    show (plugAll (recounted cs (c.join t)) ((c.recount t).plug t)).Counted
    rw [c.plug_recount]
    have hc := h c List.mem_cons_self
    refine ih ?_ fun d hd => h d (List.mem_cons_of_mem _ hd)
    obtain ⟨side, cell, sibling⟩ := c
    cases side
    · exact ht.make hc _
    · exact hc.make ht _

namespace Nodes

variable {g : Nodes} {above : List Crumb} {ribs : List Rib} {parent slot : Nat} {s : Side}
  {b : Option Nat} {t : Tree} {slots all : List Nat} {f : Focus}

theorem recount_crumb {c : Crumb} {n : Node} {far : List Nat} (get : g slot = some n)
    (holds : n.Holds c.cell parent s) (ht : g.Laid slot c.side (n.child c.side) t slots)
    (hfar : g.Laid slot c.side.other (n.child c.side.other) c.sibling far) :
    ∃ n', g.recount slot = some (fun i => if i = slot then some n' else g i) ∧
      n'.Holds (c.recount t).cell parent s ∧ ∀ side, n'.child side = n.child side := by
  obtain ⟨side, cell, sibling⟩ := c
  cases side
  all_goals
    have hv := ht.visibleOf
    have hh := ht.heightOf
    have hv' := hfar.visibleOf
    have hh' := hfar.heightOf
    simp only [Node.child, Side.other] at hv hh hv' hh'
    refine ⟨n.store _ _, ?_, holds.store _ _, fun side => by cases side <;> rfl⟩
    simp [Nodes.recount, modify, get, hv, hh, hv', hh', holds.ground, holds.cell]

/-- The lowest node of a spine is counted, and the subtree with it on top hangs on the spine
above. -/
theorem Spine.recount {c : Crumb} (h : g.Spine (c :: above) ribs slot s b)
    (ht : g.Laid slot s b t slots) (hn : (0 :: weaveAll ribs slots).Nodup) :
    ∃ g₁ n ribs' parent s' far, g.recount slot = some g₁ ∧ ribs = ⟨c.side, slot, far⟩ :: ribs' ∧
      s = c.side ∧ b = n.child s ∧ g₁ slot = some n ∧ n.Holds (c.recount t).cell parent s' ∧
      g₁.Laid slot s.other (n.child s.other) c.sibling far ∧
      g₁.Spine above ribs' parent s' (some slot) ∧
      g₁.Laid parent s' (some slot) (c.join t) (c.side.weave slots slot far) ∧
      ∀ i ≠ slot, g₁ i = g i := by
  obtain ⟨m, get₀, hground, hp⟩ := h
  cases hp with
  | @cons _ ribs parent _ s' n far _ up get holds sibling =>
    rw [weaveAll_cons] at hn
    obtain ⟨hweave, hribs, hapart⟩ := apart_of_nodup hn
    obtain ⟨-, -, hslots, hfar, -⟩ := Side.nodup_weave.1 hweave
    have hself : slot ∈ c.side.weave slots slot far := Side.mem_weave.2 (.inr (.inl rfl))
    obtain ⟨n', h₁, holds', hchild⟩ := recount_crumb get holds ht sibling
    have hsame {i : Nat} (hi : i ≠ slot) : (if i = slot then some n' else g i) = g i := if_neg hi
    have hup : Spine (fun i => if i = slot then some n' else g i) above ribs parent s'
        (some slot) := by
      refine Spine.congr ⟨m, get₀, hground, up⟩ fun i hi => hsame ?_
      rintro rfl
      exact hapart i hself hi
    have hsibling := sibling.congr fun i hi => hsame fun he => hfar (he ▸ hi)
    have hlaid := Laid.plug (c.recount t) (if_pos rfl) holds'
      (by
        rw [hchild, c.side_recount]
        exact ht.congr fun i hi => hsame fun he => hslots (he ▸ hi))
      (by
        rw [hchild, c.side_recount, c.sibling_recount]
        exact hsibling)
    rw [c.plug_recount, c.side_recount] at hlaid
    refine ⟨_, n', ribs, parent, s', far, h₁, rfl, rfl, (hchild _).symm, if_pos rfl, holds', ?_,
      hup, hlaid, fun i hi => hsame hi⟩
    rw [hchild]
    exact hsibling

theorem Spine.recountUp (h : g.Spine above ribs parent s b) (ht : g.Laid parent s b t slots)
    (hn : (0 :: weaveAll ribs slots).Nodup) :
    ∃ g', g.recountUp parent = some g' ∧ g'.Spine (recounted above t) ribs parent s b ∧
      g'.Grown (plugAll (recounted above t) t) (weaveAll ribs slots) ∧ ∀ i ∈ slots, g' i = g i := by
  induction above generalizing g ribs parent s b t slots with
  | nil =>
    obtain ⟨n, get, hground, hp⟩ := h
    obtain ⟨rfl, rfl, rfl, rfl⟩ := hp.eq_of_nil
    obtain ⟨g', hg', hgrown, hspine, hsame⟩ := Grown.recount hn get hground ht
    refine ⟨g', ?_, hspine, hgrown, fun i hi => hsame i ?_⟩
    · rw [Nodes.recountUp, hg']
      rfl
    · rintro rfl
      exact (List.nodup_cons.1 hn).1 hi
  | cons c cs ih =>
    obtain ⟨g₁, n, ribs, parent', s', far, h₁, rfl, rfl, rfl, get, holds, hfar, hup, hlaid,
      hsame₁⟩ := h.recount ht hn
    rw [weaveAll_cons] at hn ⊢
    obtain ⟨hweave, -, hapart⟩ := apart_of_nodup hn
    obtain ⟨-, -, hslots, -, -⟩ := Side.nodup_weave.1 hweave
    have hself : parent ∈ c.side.weave slots parent far := Side.mem_weave.2 (.inr (.inl rfl))
    obtain ⟨g', hg', hspine, hgrown, hsame⟩ := ih hup hlaid hn
    have hcons := hspine.cons (c.recount t) ((hsame _ hself).trans get) holds
      (by
        rw [c.side_recount, c.sibling_recount]
        exact hfar.congr fun i hi => hsame i (Side.mem_weave.2 (.inr (.inr hi))))
    rw [c.side_recount] at hcons
    refine ⟨g', ?_, hcons, ?_, fun i hi => ?_⟩
    · have hne : parent ≠ 0 := fun he => hapart parent hself (he ▸ List.mem_cons_self)
      rw [Nodes.recountUp, h₁]
      simp only [Option.bind_eq_bind, Option.bind_some, if_neg hne, get, holds.parent,
        Option.getD_some, hg']
    · show g'.Grown (plugAll (recounted cs (c.join t)) ((c.recount t).plug t)) _
      rw [c.plug_recount]
      exact hgrown
    · rw [hsame i (Side.mem_weave.2 (.inl hi)), hsame₁ i fun he => hslots (he ▸ hi)]

/-- What changing a row makes of the tree. -/
structure Marked (g : Nodes) (all : List Nat) (f f' : Focus) (slot : Nat) (e : Entry) : Prop where
  grown : g.Grown f'.plug all
  counted : f'.plug.Counted
  shape : f'.plug.shape = f.plug.shape
  lies : g.At all f' slot
  entry : f'.entry = e
  before : f'.before = f.before
  after : f'.after = f.after

/-- With its flag changed, the node of a row is the lowest one of a spine that is yet to be
counted. -/
theorem At.withHidden (hn : (0 :: all).Nodup) (h : g.At all f slot) (hidden : Bool) :
    ∃ g₁ ribs left ls, g.modify slot (·.withHidden hidden) = some g₁ ∧
      g₁.Spine (⟨.left, { f.cell with hidden := hidden }, f.right⟩ :: f.above) ribs slot .left
        left ∧
      g₁.Laid slot .left left f.left ls ∧ all = weaveAll ribs ls := by
  obtain ⟨parent, s, ribs, slots, hspine, hl, rfl⟩ := h
  cases hl with
  | @node _ _ _ n _ _ _ ls rs get holds left right =>
    obtain ⟨hweave, hribs, hapart⟩ := apart_of_nodup hn
    have hweave : (Side.left.weave ls slot rs).Nodup := hweave
    obtain ⟨-, -, hls, hrs, -⟩ := Side.nodup_weave.1 hweave
    have hself : slot ∈ ls ++ slot :: rs := by simp
    have hmodify : g.modify slot (·.withHidden hidden) =
        some fun i => if i = slot then some (n.withHidden hidden) else g i := by
      simp only [modify, get, Option.map_some]
    have hsame {i : Nat} (hi : i ≠ slot) :
        (if i = slot then some (n.withHidden hidden) else g i) = g i := if_neg hi
    have hspine₁ := hspine.congr fun i hi => hsame fun he => hapart slot hself (he ▸ hi)
    have hholds : (n.withHidden hidden).Holds { f.cell with hidden := hidden } parent s :=
      ⟨by simp only [Node.withHidden, holds.cell], holds.ground, holds.parent, holds.side⟩
    have hcons := hspine₁.cons ⟨.left, { f.cell with hidden := hidden }, f.right⟩ (if_pos rfl)
      hholds (right.congr fun i hi => hsame fun he => hrs (he ▸ hi))
    have hleft := left.congr fun i hi => hsame fun he => hls (he ▸ hi)
    exact ⟨_, _, _, ls, hmodify, hcons, hleft, rfl⟩

theorem At.setHidden (hg : g.Grown f.plug all) (hc : f.plug.Counted) (h : g.At all f slot)
    (hidden : Bool) :
    ∃ g' f', g.setHidden slot hidden = some g' ∧
      g'.Marked all f f' slot { f.entry with hidden := hidden } := by
  obtain ⟨-, n, _, _, get, holds, -, -⟩ := h.exists_node
  by_cases heq : n.cell.hidden = hidden
  · refine ⟨g, f, ?_, hg, hc, rfl, h, ?_, rfl, rfl⟩
    · rw [Nodes.setHidden, get]
      simp [heq]
    · rw [← heq, holds.cell]
      rfl
  · obtain ⟨g₁, ribs, left, ls, hmodify, hspine, hleft, rfl⟩ := h.withHidden hg.nodup hidden
    obtain ⟨g', hg', hspine', hgrown, hsame⟩ := hspine.recountUp hleft hg.nodup
    let c : Crumb := ⟨.left, { f.cell with hidden := hidden }, f.right⟩
    have hhangs : g'.Hangs _ (recounted (c :: f.above) f.left) f.left slot .left left :=
      ⟨_, ls, hspine', hleft.congr hsame, rfl⟩
    obtain ⟨-, -, parent', s', -, -, -, hup⟩ := hhangs.up
    obtain ⟨⟨hcl, hcr, -⟩, habove⟩ := counted_of_plugAll f.above hc
    have hcrumbs : ∀ d ∈ c :: f.above, d.sibling.Counted := by simpa using ⟨hcr, habove⟩
    have hcounted : (plugAll (recounted (c :: f.above) f.left) f.left).Counted :=
      counted_recounted hcl hcrumbs
    refine ⟨g', ⟨f.left, (c.recount f.left).cell, f.right, recounted f.above (c.join f.left)⟩, ?_,
      hgrown, hcounted, ?_, ⟨parent', s', hup⟩, rfl, ?_, ?_⟩
    · rw [Nodes.setHidden, get]
      simp only [Option.bind_eq_bind, Option.bind_some, if_neg heq, hmodify, hg']
    · exact (shape_recounted (c :: f.above) f.left).trans (shape_plugAll_congr f.above rfl)
    · simp only [Focus.before, Focus.onward, rowsAbove_recounted]
      rfl
    · simp only [Focus.after, Focus.onward, rowsAbove_recounted]
      rfl

/-! ## Walks that hide and show -/

def marked (flag : Entry → Option Bool) (e : Entry) : Entry :=
  match flag e with
  | none => e
  | some hidden => { e with hidden := hidden }

/-- What such a walk does at a row: nothing, or the row is hidden or shown. -/
def mark (g : Nodes) (slot : Nat) : Option Bool → Option Nodes
  | none => some g
  | some hidden => g.setHidden slot hidden

theorem At.mark (flag : Entry → Option Bool) (hg : g.Grown f.plug all) (hc : f.plug.Counted)
    (h : g.At all f slot) :
    ∃ g₁ f₁, g.mark slot (flag f.entry) = some g₁ ∧
      g₁.Marked all f f₁ slot (marked flag f.entry) ∧ g.SameRows g₁ := by
  cases hflag : flag f.entry with
  | none =>
    refine ⟨g, f, rfl, ⟨hg, hc, rfl, h, ?_, rfl, rfl⟩, .refl g⟩
    rw [marked, hflag]
  | some hidden =>
    obtain ⟨g₁, f₁, hg₁, hm⟩ := h.setHidden hg hc hidden
    refine ⟨g₁, f₁, hg₁, ?_, sameRows_setHidden hg₁⟩
    rwa [marked, hflag]

/-- One step of the walk: the row is marked, and the walk goes on from the next one. -/
theorem markWhile_of_pos {p : Entry → Bool} {flag : Entry → Option Bool} {n : Node} {g₁ g' : Nodes}
    {next stop : Nat} {rows : List (Nat × Key)} (h0 : slot ≠ 0) (get : g slot = some n)
    (hp : p n.cell.toEntry = true) (hmark : g.mark slot (flag n.cell.toEntry) = some g₁)
    (hnext : g₁.step .right slot = some next)
    (hrest : Nodes.markWhile p flag g₁ next = some (rows, stop, g')) :
    Nodes.markWhile p flag g slot = some
      (if (flag n.cell.toEntry).isSome then (slot, n.cell.key) :: rows else rows, stop, g') := by
  rw [Nodes.markWhile, if_neg h0, get]
  simp only [Option.bind_eq_bind, Option.bind_some, if_pos hp]
  cases hflag : flag n.cell.toEntry with
  | none =>
    rw [hflag] at hmark
    cases hmark
    simpa [hnext] using hrest
  | some hidden =>
    rw [hflag] at hmark
    have hmark : g.setHidden slot hidden = some g₁ := hmark
    simp only [hmark, hnext, hrest, Option.bind_some, Option.isSome_some, if_true]
    rfl

/-- What a walk that hides and shows rows leaves behind, and where it ends. -/
structure Swept (g g' : Nodes) (all : List Nat) (t : Tree) (passed : List Entry)
    (start : Option Focus) (p : Entry → Bool) (flag : Entry → Option Bool)
    (rows : List (Nat × Key)) (stop : Nat) : Prop where
  tree : ∃ t', g'.Grown t' all ∧ t'.Counted ∧ t'.shape = t.shape ∧
    t'.toList = passed ++ changeWhile p (marked flag) (reach .right start)
  keys : rows.map (·.2) =
    (((reach .right start).takeWhile p).filter (fun e => (flag e).isSome)).map (·.key)
  slots : ∀ r ∈ rows, r.1 ∈ all ∧ (g r.1).map (·.cell.key) = some r.2
  ends : ∃ start', g'.Reaches all start' stop ∧
    reach .right start' = (reach .right start).dropWhile p

section

variable {g' : Nodes} {p : Entry → Bool} {flag : Entry → Option Bool} {passed : List Entry}
  {rows : List (Nat × Key)} {stop : Nat} {start rest : Option Focus}

/-- The walk ends where there is no row, or one that does not satisfy `p`. -/
theorem Swept.stops (hg : g.Grown t all) (hc : t.Counted)
    (ht : t.toList = passed ++ reach .right start) (h : g.Reaches all start slot)
    (hp : ∀ f ∈ start, p f.entry = false) :
    Swept g g all t passed start p flag [] slot := by
  cases start with
  | none => exact ⟨⟨t, hg, hc, rfl, ht⟩, rfl, by simp, none, h, rfl⟩
  | some f =>
    have hp := hp f rfl
    refine ⟨⟨t, hg, hc, rfl, ?_⟩, by simp [reach, hp], by simp, some f, h, by simp [reach, hp]⟩
    rw [ht, reach, changeWhile_cons_of_neg p _ hp]

/-- A walk over a row that satisfies `p`, after which it goes on in a tree that has the row as it is
to be. -/
theorem Swept.cons {g₁ : Nodes} {t₁ : Tree} (hat : g.At all f slot) (hp : p f.entry = true)
    (hsame : g.SameRows g₁) (hshape : t₁.shape = t.shape) (hrest : reach .right rest = f.after)
    (h : Swept g₁ g' all t₁ (passed ++ [marked flag f.entry]) rest p flag rows stop) :
    Swept g g' all t passed (some f) p flag
      (if (flag f.entry).isSome then (slot, f.key) :: rows else rows) stop := by
  have hreach : reach .right (some f) = f.entry :: reach .right rest := by rw [hrest]; rfl
  obtain ⟨hm, n, _, _, get, holds, -, -⟩ := hat.exists_node
  have hslots : ∀ r ∈ rows, r.1 ∈ all ∧ (g r.1).map (·.cell.key) = some r.2 := fun r hr => by
    obtain ⟨hall, hkey⟩ := h.slots r hr
    have hrow := congrArg (Option.map Row.key) (hsame r.1)
    rw [Option.map_map, Option.map_map] at hrow
    exact ⟨hall, hrow.symm.trans hkey⟩
  refine ⟨?_, ?_, ?_, ?_⟩
  · obtain ⟨t', hg, hc, hs, hl⟩ := h.tree
    refine ⟨t', hg, hc, hs.trans hshape, ?_⟩
    rw [hl, hreach, changeWhile_cons_of_pos p _ hp]
    simp
  · rw [hreach, List.takeWhile_cons_of_pos hp]
    cases hflag : flag f.entry with
    | none => simpa [hflag] using h.keys
    | some hidden =>
      rw [List.filter_cons_of_pos (by simp [hflag]), List.map_cons, ← h.keys]
      rfl
  · split
    · rintro r (_ | ⟨_, hr⟩)
      · exact ⟨hm, by rw [get, Option.map_some, holds.cell]; rfl⟩
      · exact hslots r hr
    · exact hslots
  · obtain ⟨start', hr, hd⟩ := h.ends
    exact ⟨start', hr, by rw [hd, hreach, List.dropWhile_cons_of_pos hp]⟩

end

theorem Reaches.markWhile (p : Entry → Bool) (flag : Entry → Option Bool) {start : Option Focus}
    {passed : List Entry} (hg : g.Grown t all) (hc : t.Counted) (hs : ∀ f ∈ start, f.plug = t)
    (ht : t.toList = passed ++ reach .right start) (h : g.Reaches all start slot) :
    ∃ rows stop g', Nodes.markWhile p flag g slot = some (rows, stop, g') ∧
      Swept g g' all t passed start p flag rows stop := by
  -- on the rows ahead, which marking a row leaves as they are
  generalize hahead : reach .right start = ahead at ht
  induction ahead generalizing g t start slot passed with
  | nil =>
    cases start with
    | some f => cases hahead
    | none =>
      cases h
      exact ⟨[], 0, g, by rw [Nodes.markWhile, if_pos rfl]; rfl,
        .stops hg hc (ht.trans (by rw [hahead])) rfl (by simp)⟩
  | cons e rest ih =>
    cases start with
    | none => cases hahead
    | some f =>
      obtain ⟨rfl, rfl⟩ := List.cons.inj hahead
      obtain rfl := hs f rfl
      obtain ⟨-, n, _, _, get, holds, -, -⟩ := At.exists_node h
      have hne := At.ne_zero hg.zero_notMem h
      have hentry : n.cell.toEntry = f.entry := congrArg Cell.toEntry holds.cell
      cases hp : p f.entry with
      | false =>
        refine ⟨[], slot, g, ?_, .stops hg hc ht h (by simpa using hp)⟩
        rw [Nodes.markWhile, if_neg hne, get]
        simp [hentry, hp]
      | true =>
        obtain ⟨g₁, f₁, hg₁, hm₁, hsame⟩ := At.mark flag hg hc h
        obtain ⟨next, hnext, hr⟩ := hm₁.lies.step hm₁.grown.zero_notMem .right
        have hreach : reach .right (f₁.step .right) = f.onward .right :=
          (reach_step f₁ .right).trans hm₁.after
        have hpassed : f.before = passed := List.append_cancel_right (f.toList_plug.symm.trans ht)
        have htree : f₁.plug.toList = (passed ++ [marked flag f.entry]) ++ f.onward .right := by
          rw [f₁.toList_plug, hm₁.before, hm₁.after, hm₁.entry, hpassed, List.append_assoc]
          rfl
        obtain ⟨rows, stop, g', hwalk, hswept⟩ := ih hm₁.grown hm₁.counted
          (fun _ hf => (Focus.step_some hf).2) hr hreach htree
        rw [← hentry] at hp hg₁
        refine ⟨_, stop, g', markWhile_of_pos hne get hp hg₁ hnext hwalk, ?_⟩
        rw [holds.cell] at hp ⊢
        exact hswept.cons h hp hsame hm₁.shape hreach

end Nodes

end LiveTable
