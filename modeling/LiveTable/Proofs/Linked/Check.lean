import LiveTable.Proofs.Linked.Cursor
import LiveTable.Proofs.Table.Integrity

/-!
# What the integrity check finds on linked tables

The links, the numbers and the balance of a tree that lies in nodes pass the check (`Laid.audit`), and
so do the pool, the index, the cursor and the bookmarks of a table that stands for a sound one. The
check goes through the rows as they are listed (`Reaches.checkOrder`), so that what it finds is the
first pair of neighbours out of order and nothing else (`verify`).
-/

namespace LiveTable

theorem ensure_of {p : Prop} [Decidable p] {flaw : Flaw} (h : p) : ensure p flaw = .ok () :=
  if_pos h

theorem absent_none {α : Type} (flaw : α → Flaw) : absent none flaw = .ok () := rfl

/-- In a check, what comes to something goes on. -/
@[simp] theorem liftM_some {α : Type} (a : α) :
    (liftM (some a) : ExceptT Flaw Option α) = pure a := rfl

@[simp] theorem liftM_ok {α : Type} (a : α) :
    (liftM (.ok a : Except Flaw α) : ExceptT Flaw Option α) = pure a := rfl

namespace Nodes

variable {g : Nodes} {all slots : List Nat} {parent slot limit visited : Nat} {s : Side}
  {o : Option Nat} {t : Tree}

theorem Laid.checkChild {side : Side} {n : Node} (h : g.Laid slot side (n.child side) t slots) :
    g.checkChild slot n side = .ok () := by
  rw [Nodes.checkChild]
  generalize n.child side = child at h
  cases h with
  | nil => rfl
  | node get holds =>
    simp only [get]
    exact ensure_of ⟨holds.parent, holds.side⟩

theorem Laid.length_eq (h : g.Laid parent s o t slots) : slots.length = t.toList.length := by
  induction h with
  | nil => rfl
  | node get holds left right ihl ihr => simp [ihl, ihr]

/-- A tree that is sound passes, and is met node by node. -/
theorem Laid.audit (h : g.Laid parent s o t slots) (ht : t.Sound)
    (hl : visited + slots.length ≤ limit) :
    g.audit limit o visited =
      pure (visited + slots.length, visibleCount t.toList, t.depth) := by
  induction h generalizing visited with
  | nil => rw [Nodes.audit]; rfl
  | @node parent slot s n l r c ls rs get holds left right ihl ihr =>
    obtain ⟨⟨hlc, hrc, hh, hv⟩, ⟨hlb, hrb, h1, h2⟩⟩ := ht
    rw [List.length_append, List.length_cons] at hl
    have hweight : n.cell.weight = c.weight := by rw [holds.cell]
    have hnumbers : n.cell.visible = c.weight + (visibleCount l.toList + visibleCount r.toList) ∧
        n.cell.height = 1 + max l.depth r.depth := by
      rw [holds.cell]
      exact ⟨hv, hh⟩
    have hlist : visibleCount (l.toList ++ c.toEntry :: r.toList) =
        c.weight + (visibleCount l.toList + visibleCount r.toList) := by
      rw [visibleCount_append, visibleCount_cons, Nat.add_left_comm]
    have hhere : visited + 1 ≤ limit := by omega
    have hleft := ihl ⟨hlc, hlb⟩ (show visited + 1 + ls.length ≤ limit by omega)
    have hright := ihr ⟨hrc, hrb⟩ (show visited + 1 + ls.length + rs.length ≤ limit by omega)
    rw [Nodes.audit]
    simp only [get, liftM_some, liftM_ok, pure_bind, ensure_of hhere, ensure_of holds.ground,
      Laid.checkChild left, hleft, Laid.checkChild right, hright, hweight, ensure_of hnumbers,
      ensure_of (And.intro h1 h2)]
    rw [Tree.toList_node, hlist, List.length_append, List.length_cons]
    refine congrArg (fun k => pure (k, _, _)) ?_
    omega

theorem Reaches.checkOrder (h0 : 0 ∉ all) (compare : SortKey → SortKey → Ordering)
    {start : Option Focus} (last : Option Entry) (h : g.Reaches all start slot) :
    g.checkOrder compare last slot =
      match misordered? compare (last.toList ++ reach .right start) with
      | none => pure ()
      | some (a, b) => throw (.misordered a b) := by
  generalize hrows : reach .right start = rows
  induction rows generalizing start slot last with
  | nil =>
    cases start with
    | some f => cases hrows
    | none =>
      cases h
      rw [Nodes.checkOrder]
      cases last <;> rfl
  | cons e rest ih =>
    cases start with
    | none => cases hrows
    | some f =>
      obtain ⟨rfl, rfl⟩ := List.cons.inj hrows
      obtain ⟨i, hi, hr⟩ := At.step h0 .right h
      obtain ⟨-, n, _, _, get, holds, -, -⟩ := At.exists_node h
      have hnext := ih (some f.entry) hr (reach_step f .right)
      have hentry : n.cell.toEntry = f.entry := congrArg Cell.toEntry holds.cell
      rw [Nodes.checkOrder, if_neg (At.ne_zero h0 h), get]
      simp only [liftM_some, pure_bind, hentry, hi]
      cases last with
      | none => exact hnext
      | some a =>
        simp only [Option.toList_some, List.cons_append, List.nil_append, misordered?]
        by_cases hgt : (compare a.columns f.entry.columns).isGT = true
        · rw [checkPair, ensure, if_neg (not_not.2 hgt), if_pos hgt]
          rfl
        · rw [checkPair, ensure_of hgt, if_neg hgt]
          exact hnext

end Nodes

namespace LinkedTable.Represents

variable {w : LinkedTable} {t : Table} {all : List Nat}

theorem staleKey?_eq_none (h : w.Represents t all) : w.staleKey? = none := by
  rw [staleKey?, Option.map_eq_none_iff, List.find?_eq_none]
  rintro ⟨key, slot⟩ hm
  have hi : t.store.index[key]? = some slot := by
    rw [← h.index_eq]
    exact Std.HashMap.mem_toList_iff_getElem?_eq_some.1 hm
  obtain ⟨-, r, hg, hk⟩ := h.sound.store.row_of_slot key slot hi
  rw [← h.rows] at hg
  obtain ⟨n, hn, hr⟩ := Option.map_eq_some_iff.1 (Pool.get?_map.symm.trans hg)
  have hkey : n.cell.key = key := (congrArg Row.key hr).trans hk
  simp [nodes, hn, hkey]

theorem astray?_eq_none (h : w.Represents t all) {p : Position} (hp : p.Within t.entries) :
    w.astray? (w.slotOf p) = none := by
  rw [astray?, Option.filter_eq_none_iff]
  intro slot hs
  cases p with
  | pastEnd => cases hs
  | beforeFirst =>
    cases hs
    have hlive : (w.nodes 0).isSome := h.grown.live List.mem_cons_self
    simpa [Option.isSome_iff_ne_none] using hlive
  | row key =>
    obtain ⟨f, slot', hf⟩ := h.exists_found hp
    cases hf.index.symm.trans hs
    obtain ⟨-, n, _, _, get, -⟩ := hf.lies.exists_node
    simp [get]

theorem bookmark_within (h : w.Represents t all) :
    ∀ b ∈ w.bookmarks, w.astray? b.position = none := by
  intro b hb
  rw [h.bookmarks] at hb
  obtain ⟨b', hb', rfl⟩ := List.mem_map.1 hb
  exact h.astray?_eq_none (h.sound.bookmarks b' hb')

theorem checkRoot (h : w.Represents t all) {n : Node} (get : w.nodes 0 = some n) :
    w.checkRoot n.right = pure () := by
  obtain ⟨m, hm, hangs⟩ := h.grown.hangs
  cases get.symm.trans hm
  cases hb : n.right with
  | none => rfl
  | some top =>
    rw [hb] at hangs
    obtain ⟨-, m, _, get', holds, -⟩ := hangs.exists_top
    rw [LinkedTable.checkRoot, get']
    simp only [liftM_some, pure_bind, ensure_of (And.intro holds.parent holds.side)]
    rfl

theorem forIn_of_pass {α : Type} {m : Type → Type} [Monad m] [LawfulMonad m] {rows : List α}
    {check : α → PUnit → m (ForInStep PUnit)} (h : ∀ a ∈ rows, check a ⟨⟩ = pure (.yield ⟨⟩)) :
    forIn rows ⟨⟩ check = pure ⟨⟩ := by
  induction rows with
  | nil => rfl
  | cons a rest ih =>
    rw [List.forIn_cons, h a List.mem_cons_self, pure_bind]
    exact ih fun b hb => h b (List.mem_cons_of_mem a hb)

theorem inspect (h : w.Represents t all) :
    w.inspect = match misordered? t.compare t.entries with
      | none => pure ()
      | some (a, b) => throw (.misordered a b) := by
  obtain ⟨n, get, hground, hv, hh, hl⟩ := h.grown.laid
  have hlength : all.length = t.entries.length := hl.length_eq
  have hsizes : 0 + all.length = w.size ∧ 0 + all.length = w.index.size := by
    rw [h.size, h.index_eq, h.sound.store.size_eq, Nat.zero_add, hlength]
    exact ⟨h.sound.size_eq.symm, h.sound.size_eq.symm⟩
  have haudit : w.nodes.audit w.size n.right 0 =
      pure (0 + all.length, visibleCount t.tree.toList, t.tree.depth) :=
    hl.audit h.sound.tree (Nat.le_of_eq hsizes.1)
  have hnumbers : n.cell.visible = visibleCount t.tree.toList ∧ n.cell.height = t.tree.depth :=
    ⟨hv.trans h.sound.tree.counted.visible_eq, hh.trans h.sound.tree.counted.height_eq⟩
  have hground' : n.ground = true ∧ n.cell.hidden = false ∧ n.left = none :=
    ⟨hground.ground, congrArg Entry.hidden hground.entry, hground.left⟩
  obtain ⟨first, hfirst, hreaches⟩ := h.step_ground
  have horder := hreaches.checkOrder h.grown.zero_notMem t.compare none
  rw [reach_outermost] at horder
  have hcursor : w.astray? w.cursor = none := by
    rw [h.cursor]
    exact h.astray?_eq_none h.sound.cursor
  rw [LinkedTable.inspect]
  simp only [get, liftM_some, liftM_ok, pure_bind, ensure_of hground', h.checkRoot get, haudit,
    ensure_of hnumbers, ensure_of hsizes, h.staleKey?_eq_none, absent_none, hfirst, h.compare,
    horder, hcursor]
  rw [show none.toList ++ t.tree.toList = t.entries from rfl]
  cases misordered? t.compare t.entries with
  | some pair => rfl
  | none =>
    have hloop : forIn w.bookmarks PUnit.unit (fun b _ => do
        absent (w.astray? b.position) (.bookmarkAstray b.mark)
        pure (ForInStep.yield PUnit.unit)) = (pure ⟨⟩ : ExceptT Flaw Option PUnit) :=
      forIn_of_pass fun b hb => by rw [h.bookmark_within b hb]; rfl
    simp only [pure_bind]
    rw [hloop]
    rfl

/-- The check finds on the links what it finds on the tree. -/
theorem verify (h : w.Represents t all) : w.verify.run = some t.verify := by
  rw [LinkedTable.verify, h.inspect, Table.verify]
  cases misordered? t.compare t.entries with
  | none => rfl
  | some pair => rfl

end LinkedTable.Represents

end LiveTable
