import LiveTable.Linked.Command
import LiveTable.Proofs.Linked.Mark
import LiveTable.Proofs.Linked.Unlink
import LiveTable.Proofs.Table.Cursor

/-!
# What a table of linked nodes stands for

A table of linked nodes stands for a table if the tree of the one lies in the nodes of the other
(`Represents`): the nodes hang together as the cells do and have the same numbers, the pool and the
index are those of the store, and the cursor and the bookmarks are slots where the others are keys.
Positions, ranks and walks correspond.

The two tables answer alike if they come to the same fault, or if what they come to corresponds
(`Agrees`); the rules say how this is passed on from step to step.
-/

namespace LiveTable

namespace Pool

variable {α β : Type} {p : Pool α} {f : α → β} {slot : Nat}

def map (f : α → β) (p : Pool α) : Pool β := ⟨p.slots.map (Option.map f), p.vacant⟩

@[simp] theorem get?_map : (p.map f).get? slot = (p.get? slot).map f := by
  simp only [map, get?, Array.getElem?_map]
  cases p.slots[slot]? <;> rfl

theorem map_alloc (a : α) :
    ((p.alloc a).2.map f = ((p.map f).alloc (f a)).2) ∧
      (p.alloc a).1 = ((p.map f).alloc (f a)).1 := by
  obtain ⟨slots, vacant⟩ := p
  cases vacant <;> simp [alloc, map]

theorem map_release (slot : Nat) :
    (p.map f).release? slot = (p.release? slot).map fun (a, q) => (f a, q.map f) := by
  by_cases h : slot = 0
  · simp [release?, h]
  · simp only [release?, h, if_false, get?_map, Option.map_map]
    refine congrArg (Option.map · (p.get? slot)) (funext fun a => ?_)
    simp [map]

@[simp] theorem size_map : (p.map f).size = p.size := by simp [size, map]

theorem map_withGround (a : α) : (withGround a).map f = withGround (f a) := by
  simp [withGround, map]

theorem Sound.of_map (h : (p.map f).Sound) : p.Sound where
  nodup := h.nodup
  mem_vacant_iff slot := by
    rw [show p.vacant = (p.map f).vacant from rfl, h.mem_vacant_iff]
    simp only [map, Array.getElem?_map]
    cases p.slots[slot]? with
    | none => simp
    | some o => cases o <;> simp
  ground := fun he => h.ground (by rw [get?_map, he]; rfl)

theorem get?_refill {values : Nat → Option α} (h : ∀ i, (values i).isSome = (p.get? i).isSome) :
    (p.refill values).get? = values := by
  funext i
  simp only [get?, refill, Array.getElem?_mapIdx]
  cases hi : p.slots[i]? with
  | some o => rfl
  | none =>
    have := h i
    rw [get?, hi] at this
    symm
    simpa using this

/-- Other values that stand for the same change nothing in what the pool stands for. -/
theorem map_refill {values : Nat → Option α}
    (h : ∀ i, (values i).map f = (p.get? i).map f) : (p.refill values).map f = p.map f := by
  have hslots : (p.refill values).map f = ⟨(p.refill values).slots.map (Option.map f), p.vacant⟩ :=
    rfl
  rw [hslots]
  refine congrArg (Pool.mk · p.vacant) (Array.ext_getElem? fun i => ?_)
  simp only [refill, Array.getElem?_map, Array.getElem?_mapIdx]
  cases hi : p.slots[i]? with
  | none => rfl
  | some o =>
    have := h i
    rw [get?, hi] at this
    simpa using this

end Pool

/-- The rows of a tree lie in the nodes of a pool; `all` are their slots in order. -/
structure Housed (p : Pool Node) (index : Std.HashMap Key Nat) (tree : Tree) (all : List Nat) :
    Prop where
  grown : Nodes.Grown p.get? tree all
  /-- The index leads from the key of a row back to its slot. -/
  indexed : ∀ slot ∈ all, ∀ n, p.get? slot = some n → index[n.cell.key]? = some slot
  /-- No slot is in use but those of the rows and of the ground. -/
  occupied : ∀ slot, (p.get? slot).isSome → slot ∈ 0 :: all

theorem housed_ground : Housed (.withGround .above) ∅ .nil [] where
  grown := ⟨by simp, .above, rfl, ⟨rfl, rfl, rfl⟩, rfl, rfl, .nil 0 .right⟩
  indexed := by simp
  occupied slot h := by
    cases slot with
    | zero => exact List.mem_cons_self
    | succ slot => simp [Pool.get?, Pool.withGround] at h

namespace LinkedTable

def rows (w : LinkedTable) : Store := ⟨w.index, w.pool.map (·.cell.toRow)⟩

def slotOf (w : LinkedTable) : Position → Option Nat
  | .beforeFirst => some 0
  | .row key => w.index[key]?
  | .pastEnd => none

def saved (w : LinkedTable) (b : Bookmark) : SavedSlot := ⟨b.mark, w.slotOf b.position, b.rank⟩

/-- The linked table stands for the other one. -/
structure Represents (w : LinkedTable) (t : Table) (all : List Nat) : Prop where
  sound : t.Sound
  settings : w.settings = t.settings
  collation : w.collation = t.collation
  arrivals : w.arrivals = t.arrivals
  nextMark : w.nextMark = t.nextMark
  tally : w.tally = t.tally
  rows : w.rows = t.store
  housed : Housed w.pool w.index t.tree all
  cursor : w.cursor = w.slotOf t.cursor
  bookmarks : w.bookmarks = t.bookmarks.map w.saved

namespace Represents

variable {w : LinkedTable} {t : Table} {all : List Nat} {f : Focus} {key : Key} {slot : Nat}

theorem grown (h : w.Represents t all) : w.nodes.Grown t.tree all := h.housed.grown

theorem pool (h : w.Represents t all) : w.pool.Sound :=
  Pool.Sound.of_map (show w.rows.pool.Sound from h.rows ▸ h.sound.store.pool)

theorem index_eq (h : w.Represents t all) : w.index = t.store.index := congrArg Store.index h.rows

theorem size (h : w.Represents t all) : w.size = t.size := by
  show w.pool.size = t.store.pool.size
  rw [← congrArg Store.pool h.rows]
  exact Pool.size_map.symm

theorem compare (h : w.Represents t all) : w.compare = t.compare := by
  unfold LinkedTable.compare Table.compare
  rw [h.collation]

theorem isUnder (h : w.Represents t all) : w.isUnder = t.isUnder := by
  funext header e
  rw [LinkedTable.isUnder, Table.isUnder, h.collation]

/-! ## Rows and their slots -/

/-- The key leads to a row and to its slot. -/
structure Found (w : LinkedTable) (t : Table) (all : List Nat) (key : Key) (slot : Nat)
    (f : Focus) : Prop where
  focus : t.focus? key = some f
  key_eq : f.key = key
  plug : f.plug = t.tree
  index : w.index[key]? = some slot
  lies : w.nodes.At all f slot

theorem exists_at (h : w.Represents t all) (hf : f.plug = t.tree) :
    ∃ slot, w.index[f.key]? = some slot ∧ w.nodes.At all f slot := by
  obtain ⟨n, get, hground, -, -, hl⟩ := h.grown.laid
  rw [← hf] at hl
  obtain ⟨ribs, parent, s, b, below, hpath, hbelow, rfl⟩ := hl.exists_path
  have hangs : w.nodes.Hangs _ f.above f.subtree parent s b :=
    ⟨ribs, below, ⟨n, get, hground, hpath⟩, hbelow, rfl⟩
  obtain ⟨slot, m, rfl, hm, get', holds, -, -⟩ := hangs.node
  have hi := h.housed.indexed slot hm m get'
  rw [holds.cell] at hi
  exact ⟨slot, hi, parent, s, hangs⟩

theorem index_of_at (h : w.Represents t all) (hat : w.nodes.At all f slot) :
    w.index[f.key]? = some slot := by
  obtain ⟨hm, n, _, _, get, holds, -, -⟩ := hat.exists_node
  have hi := h.housed.indexed slot hm n get
  rwa [holds.cell] at hi

/-- A key leads to a row and its slot, or it is under no row and in no index. -/
theorem key_cases (h : w.Represents t all) (key : Key) :
    (t.focus? key = none ∧ w.index[key]? = none) ∨ ∃ f slot, Found w t all key slot f := by
  cases hf : t.focus? key with
  | none =>
    refine .inl ⟨rfl, ?_⟩
    rw [h.index_eq, ← h.sound.store.find?_eq_none_iff]
    have hk := h.sound.focus?_eq_none_iff.1 hf
    rwa [h.sound.mem_keys_iff, not_not] at hk
  | some f =>
    obtain ⟨hs, hk⟩ := h.sound.splits_of_focus? hf
    obtain ⟨slot, hi, hat⟩ := h.exists_at hs.plug
    exact .inr ⟨f, slot, hf, hk, hs.plug, hk ▸ hi, hat⟩

theorem exists_found (h : w.Represents t all) (hk : HasKey t.entries key) :
    ∃ f slot, Found w t all key slot f := by
  rcases h.key_cases key with ⟨hf, -⟩ | hfound
  · exact absurd hk (h.sound.focus?_eq_none_iff.1 hf)
  · exact hfound

theorem Found.ne_zero (hf : Found w t all key slot f) (h : w.Represents t all) : slot ≠ 0 :=
  hf.lies.ne_zero h.grown.zero_notMem

/-! ## Positions and their slots -/

theorem slotOf_inj (h : w.Represents t all) {p q : Position} (hp : p.Within t.entries)
    (hq : q.Within t.entries) : w.slotOf p = w.slotOf q ↔ p = q := by
  have hrow {key : Key} (hk : HasKey t.entries key) :
      ∃ slot, w.index[key]? = some slot ∧ slot ≠ 0 := by
    obtain ⟨f, slot, hf⟩ := h.exists_found hk
    exact ⟨slot, hf.index, hf.ne_zero h⟩
  refine ⟨fun he => ?_, fun he => congrArg w.slotOf he⟩
  cases p with
  | beforeFirst =>
    cases q with
    | beforeFirst => rfl
    | pastEnd => cases he
    | row key =>
      obtain ⟨slot, hi, h0⟩ := hrow hq
      exact absurd (Option.some.inj (he.trans hi)).symm h0
  | pastEnd =>
    cases q with
    | beforeFirst => cases he
    | pastEnd => rfl
    | row key =>
      obtain ⟨slot, hi, -⟩ := hrow hq
      cases he.trans hi
  | row key =>
    obtain ⟨slot, hi, h0⟩ := hrow hp
    cases q with
    | beforeFirst => exact absurd (Option.some.inj (hi.symm.trans he)) h0
    | pastEnd => cases hi.symm.trans he
    | row other =>
      have hi' : w.index[other]? = some slot := he.symm.trans hi
      rw [h.index_eq] at hi hi'
      rw [h.sound.store.key_eq_of_slot hi hi']

/-- A position has the slot of a row only if it is on that row. -/
theorem slotOf_eq_iff (h : w.Represents t all) (hk : HasKey t.entries key)
    (hi : w.index[key]? = some slot) {p : Position} (hp : p.Within t.entries) :
    w.slotOf p = some slot ↔ p = .row key := by
  rw [← hi]
  exact h.slotOf_inj hp (q := .row key) hk

theorem landing_right {stop : Option Focus} (h : w.Represents t all)
    (hr : w.nodes.Reaches all stop slot) : landing .right slot = w.slotOf (.orEnd stop) := by
  cases stop with
  | none =>
    cases hr
    rfl
  | some f =>
    have h0 : slot ≠ 0 := Nodes.At.ne_zero h.grown.zero_notMem hr
    rw [landing, if_neg (by simp [h0])]
    exact (h.index_of_at hr).symm

theorem landing_left {stop : Option Focus} (h : w.Represents t all)
    (hr : w.nodes.Reaches all stop slot) : landing .left slot = w.slotOf (.orStart stop) := by
  cases stop with
  | none =>
    cases hr
    rfl
  | some f => exact (h.index_of_at hr).symm

theorem lands {found : Option Focus} {o : Option Nat} (h : w.Represents t all)
    (hl : w.nodes.Lands all found o) : o = w.slotOf (.orEnd found) := by
  cases found with
  | none => exact hl
  | some f =>
    obtain ⟨slot, rfl, hat⟩ := hl
    exact (h.index_of_at hat).symm

theorem keyAt {stop : Option Focus} (h : w.Represents t all)
    (hr : w.nodes.Reaches all stop slot) : w.keyAt slot = some (stop.map (·.key)) := by
  cases stop with
  | none =>
    cases hr
    rfl
  | some f =>
    obtain ⟨-, n, _, _, get, holds, -, -⟩ := Nodes.At.exists_node hr
    rw [LinkedTable.keyAt, if_neg (Nodes.At.ne_zero h.grown.zero_notMem hr), get, Option.map_some,
      holds.cell]
    rfl

/-! ## From the ground -/

theorem exists_root (h : w.Represents t all) :
    ∃ b, w.root = some b ∧ w.nodes.Hangs all [] t.tree 0 .right b := by
  obtain ⟨n, get, hangs⟩ := h.grown.hangs
  exact ⟨n.right, by rw [root, get]; rfl, hangs⟩

theorem visible (h : w.Represents t all) : w.visible = some t.visible := by
  obtain ⟨n, get, -, hv, -⟩ := h.grown.laid
  rw [LinkedTable.visible, get, Option.map_some, hv]
  rfl

theorem step_ground (h : w.Represents t all) :
    ∃ i, w.nodes.step .right 0 = some i ∧
      w.nodes.Reaches all (t.tree.outermost .left []) i := by
  obtain ⟨n, get, hangs⟩ := h.grown.hangs
  rw [Nodes.step, get]
  simp only [Option.bind_eq_bind, Option.bind_some, Node.child]
  cases hb : n.right with
  | none =>
    have hnil : t.tree = .nil := hangs.eq_nil_iff.2 hb
    refine ⟨0, ?_, by rw [hnil]; rfl⟩
    show w.nodes.ascend .right 0 = some 0
    rw [Nodes.ascend, if_pos rfl]
    rfl
  | some top =>
    rw [hb] at hangs
    obtain ⟨f, i, hf, hi, hat⟩ := hangs.outermost .left
    exact ⟨i, hi, by rw [hf]; exact hat⟩

theorem rankOf (h : w.Represents t all) {p : Position} (hp : p.Within t.entries) :
    w.rankOf (w.slotOf p) = some (t.rankOf p) := by
  cases p with
  | beforeFirst => rfl
  | pastEnd => exact h.visible
  | row key =>
    obtain ⟨f, slot, hf⟩ := h.exists_found hp
    rw [slotOf, hf.index, LinkedTable.rankOf, if_neg (hf.ne_zero h),
      hf.lies.rank h.grown.zero_notMem, Table.rankOf, hf.focus]
    rfl

theorem select (h : w.Represents t all) (rank : Nat) :
    w.select rank = some (w.slotOf (t.select rank)) := by
  obtain ⟨b, hb, hangs⟩ := h.exists_root
  obtain ⟨o, ho, hl⟩ := hangs.select rank
  rw [LinkedTable.select, hb]
  exact ho.trans (congrArg some (h.lands hl))

theorem after (h : w.Represents t all) {p : Position} (hp : p.Within t.entries) :
    w.after (w.slotOf p) = some (w.slotOf (t.after p)) := by
  cases p with
  | pastEnd => rfl
  | beforeFirst =>
    obtain ⟨i, hi, hr⟩ := h.step_ground
    rw [slotOf, LinkedTable.after, hi, Option.map_some, h.landing_right hr]
    rfl
  | row key =>
    obtain ⟨f, slot, hf⟩ := h.exists_found hp
    obtain ⟨i, hstep, hr⟩ := hf.lies.step h.grown.zero_notMem .right
    rw [slotOf, hf.index, LinkedTable.after, hstep, Option.map_some, h.landing_right hr,
      Table.after, hf.focus]

theorem before (h : w.Represents t all) {p : Position} (hp : p.Within t.entries) :
    w.before (w.slotOf p) = some (w.slotOf (t.before p)) := by
  cases p with
  | beforeFirst => rfl
  | pastEnd =>
    simp only [slotOf, LinkedTable.before, Table.before, h.visible, Option.bind_eq_bind,
      Option.bind_some]
    split
    · rfl
    · exact h.select _
  | row key =>
    obtain ⟨f, slot, hf⟩ := h.exists_found hp
    obtain ⟨i, hstep, hr⟩ := hf.lies.step h.grown.zero_notMem .left
    rw [slotOf, hf.index, LinkedTable.before, if_neg (hf.ne_zero h), hstep, Option.map_some,
      h.landing_left hr, Table.before, hf.focus]

/-! ## What does not touch the rows -/

theorem note (h : w.Represents t all) (e : Tally.Event) : (w.note e).Represents (t.note e) all :=
  { h with
    sound := h.sound.note e
    tally := congrArg (Tally.note · e) h.tally }

theorem moveTo (h : w.Represents t all) {p : Position} (hp : p.Within t.entries) :
    ({ w with cursor := w.slotOf p } : LinkedTable).Represents { t with cursor := p } all :=
  { h with
    sound := h.sound.moveTo hp
    cursor := rfl }

end Represents

theorem represents_empty (settings : Settings) (collation : Collation) :
    (empty settings collation).Represents (.empty settings collation) [] where
  sound := Table.sound_empty settings collation
  settings := rfl
  collation := rfl
  arrivals := rfl
  nextMark := rfl
  tally := rfl
  rows := congrArg (Store.mk ∅) (Pool.map_withGround Node.above)
  housed := housed_ground
  cursor := rfl
  bookmarks := rfl

/-! ## Answers that agree -/

/-- Both come to the same fault, or to results that correspond. -/
inductive Agrees {α β : Type} (R : α → β → Prop) : Attempt α → Except Fault β → Prop
  | ok {a : α} {b : β} (h : R a b) : Agrees R (pure a) (.ok b)
  | error (fault : Fault) : Agrees R (throw fault) (.error fault)

/-- The linked table stands for the other one, wherever its rows lie. -/
def StandsFor (w : LinkedTable) (t : Table) : Prop := ∃ all, w.Represents t all

def Matches {α : Type} (x : α × LinkedTable) (y : α × Table) : Prop :=
  x.1 = y.1 ∧ x.2.StandsFor y.2

namespace Agrees

variable {α β γ δ : Type} {R : α → β → Prop} {S : γ → δ → Prop} {x : Attempt α}
  {y : Except Fault β}

theorem bind {k : α → Attempt γ} {k' : β → Except Fault δ} (h : Agrees R x y)
    (hk : ∀ a b, R a b → Agrees S (k a) (k' b)) : Agrees S (x >>= k) (y >>= k') := by
  cases h with
  | ok hab => exact hk _ _ hab
  | error fault => exact .error fault

theorem map {k : α → Attempt γ} {k' : β → δ} (h : Agrees R x y)
    (hk : ∀ a b, R a b → Agrees S (k a) (.ok (k' b))) : Agrees S (x >>= k) (y.map k') := by
  cases h with
  | ok hab => exact hk _ _ hab
  | error fault => exact .error fault

/-- A step that cannot fail and comes to something. -/
theorem lift {o : Option α} {a : α} {k : α → Attempt γ} {z : Except Fault δ} (ho : o = some a)
    (h : Agrees S (k a) z) : Agrees S (liftM o >>= k) z := by
  subst ho
  exact h

theorem of_eq_some {o : Option α} {a : α} {b : β} (ho : o = some a) (h : R a b) :
    Agrees R (liftM o) (.ok b) := by
  subst ho
  exact .ok h

theorem of_run {y : Except Fault α} {x : Attempt α} (h : x.run = some y) :
    Agrees (· = ·) x y := by
  have hx : x = ExceptT.mk (some y) := h
  subst hx
  cases y with
  | ok a => exact .ok rfl
  | error fault => exact .error fault

end Agrees

namespace Represents

variable {w : LinkedTable} {t : Table} {all : List Nat} {f : Focus} {key : Key} {slot : Nat}

theorem lookup (h : w.Represents t all) (key : Key) :
    Agrees (Found w t all key) (w.lookup key) (t.lookup key) := by
  rcases h.key_cases key with ⟨hf, hi⟩ | ⟨f, slot, hf⟩
  · rw [Table.lookup_of_none hf, LinkedTable.lookup, hi]
    exact .error _
  · rw [Table.lookup_of_some hf.focus, LinkedTable.lookup, hf.index]
    exact .ok hf

end Represents

end LinkedTable

end LiveTable
