import LiveTable.Linked.Edit

/-!
# Rows stay in their slots

Whatever is done to links, stored numbers and hidden flags, every slot that holds a row goes on to
hold the same row, and an empty slot stays empty. This holds of any nodes, whether or not they are
linked to a tree: where a call comes to something at all, it has done nothing to a row.
-/

namespace LiveTable.Nodes

/-- Every slot holds the row that it did. -/
def SameRows (g g' : Nodes) : Prop :=
  ∀ i, (g' i).map (·.cell.toRow) = (g i).map (·.cell.toRow)

variable {g g' g'' : Nodes} {slot parent : Nat} {side : Side}

@[simp] theorem SameRows.refl (g : Nodes) : g.SameRows g := fun _ => rfl

theorem SameRows.trans (h : g.SameRows g') (h' : g'.SameRows g'') : g.SameRows g'' :=
  fun i => (h' i).trans (h i)

theorem SameRows.isSome_iff (h : g.SameRows g') (i : Nat) : (g' i).isSome = (g i).isSome := by
  have := congrArg Option.isSome (h i)
  rwa [Option.isSome_map, Option.isSome_map] at this

theorem SameRows.exists_key (h : g.SameRows g') {i : Nat} {n : Node} (hn : g' i = some n) :
    ∃ m, g i = some m ∧ m.cell.key = n.cell.key := by
  have hrow := h i
  rw [hn] at hrow
  obtain ⟨m, hm, he⟩ := Option.map_eq_some_iff.1 hrow.symm
  exact ⟨m, hm, congrArg Row.key he⟩

theorem sameRows_modify {change : Node → Node} (h : g.modify slot change = some g')
    (hc : ∀ n, (change n).cell.toRow = n.cell.toRow) : g.SameRows g' := by
  obtain ⟨n, hn, rfl⟩ := Option.map_eq_some_iff.1 h
  intro i
  by_cases hi : i = slot
  · simp [hi, hn, hc]
  · simp [hi]

theorem sameRows_link {child : Option Nat} (h : g.link parent side child = some g') :
    g.SameRows g' := by
  obtain ⟨g₁, h₁, h₂⟩ := Option.bind_eq_some_iff.1 h
  have hfirst : g.SameRows g₁ := sameRows_modify h₁ fun n => by cases side <;> rfl
  cases child with
  | none =>
    cases h₂
    exact hfirst
  | some slot => exact hfirst.trans (sameRows_modify h₂ fun _ => rfl)

theorem sameRows_recount (h : g.recount slot = some g') : g.SameRows g' := by
  simp only [recount, Option.bind_eq_bind, Option.bind_eq_some_iff] at h
  obtain ⟨n, -, lv, -, rv, -, lh, -, rh, -, h⟩ := h
  exact sameRows_modify h fun _ => rfl

theorem sameRows_lift {up : Lifted} (h : g.lift side slot = some up) : g.SameRows up.nodes := by
  simp only [lift, Option.bind_eq_bind, Option.bind_eq_some_iff] at h
  obtain ⟨n, -, h⟩ := h
  split at h
  · cases h
    exact .refl g
  · simp only [Option.bind_eq_some_iff] at h
    obtain ⟨top, -, g₁, h₁, g₂, h₂, g₃, h₃, g₄, h₄, g₅, h₅, h⟩ := h
    cases h
    exact (sameRows_link h₁).trans <| (sameRows_link h₂).trans <| (sameRows_link h₃).trans <|
      (sameRows_recount h₄).trans (sameRows_recount h₅)

theorem sameRows_liftHeavy {up : Lifted} (h : g.liftHeavy side slot = some up) :
    g.SameRows up.nodes := by
  have hsecond (first : Lifted) (hfirst : g.SameRows first.nodes)
      (h : ((first.nodes.lift side slot).bind fun second =>
        some { second with rotations := first.rotations + second.rotations }) = some up) :
      g.SameRows up.nodes := by
    obtain ⟨second, hs, h⟩ := Option.bind_eq_some_iff.1 h
    cases h
    have hlift : first.nodes.SameRows second.nodes := sameRows_lift hs
    exact hfirst.trans hlift
  obtain ⟨n, -, h⟩ := Option.bind_eq_some_iff.1 h
  dsimp only at h
  split at h
  · exact hsecond _ (.refl g) h
  · obtain ⟨excess, -, h⟩ := Option.bind_eq_some_iff.1 h
    split at h
    · obtain ⟨first, hfirst, h⟩ := Option.bind_eq_some_iff.1 h
      exact hsecond first (sameRows_lift hfirst) h
    · exact hsecond ⟨_, 0, g⟩ (.refl g) h

theorem sameRows_restructure {up : Lifted} (h : g.restructure slot = some up) :
    g.SameRows up.nodes := by
  obtain ⟨excess, -, h⟩ := Option.bind_eq_some_iff.1 h
  split at h
  · exact sameRows_liftHeavy h
  split at h
  · exact sameRows_liftHeavy h
  · cases h
    exact .refl g

theorem sameRows_rebalance {r : Nodes × Nat} (h : g.rebalance slot = some r) :
    g.SameRows r.1 := by
  refine Nodes.rebalance.partial_correctness (fun g _ r => g.SameRows r.1) ?_ g slot r h
  intro rebalance ih g slot r h
  split at h
  · obtain ⟨g₁, h₁, h⟩ := Option.bind_eq_some_iff.1 h
    cases h
    exact sameRows_recount h₁
  · simp only [Option.bind_eq_bind, Option.bind_eq_some_iff] at h
    obtain ⟨g₁, h₁, up, hup, n, -, rest, hrest, h⟩ := h
    cases h
    have hup := (sameRows_recount h₁).trans (sameRows_restructure hup)
    exact hup.trans (ih _ _ rest hrest)

theorem sameRows_recountUp (h : g.recountUp slot = some g') : g.SameRows g' := by
  refine Nodes.recountUp.partial_correctness (fun g _ g' => g.SameRows g') ?_ g slot g' h
  intro recountUp ih g slot g' h
  obtain ⟨g₁, h₁, h⟩ := Option.bind_eq_some_iff.1 h
  refine (sameRows_recount h₁).trans ?_
  split at h
  · cases h
    exact .refl _
  · obtain ⟨n, -, h⟩ := Option.bind_eq_some_iff.1 h
    exact ih _ _ _ h

theorem sameRows_setHidden {hidden : Bool} (h : g.setHidden slot hidden = some g') :
    g.SameRows g' := by
  obtain ⟨n, -, h⟩ := Option.bind_eq_some_iff.1 h
  split at h
  · cases h
    exact .refl g
  · obtain ⟨g₁, h₁, h⟩ := Option.bind_eq_some_iff.1 h
    exact (sameRows_modify h₁ fun _ => rfl).trans (sameRows_recountUp h)

theorem sameRows_markWhile {p : Entry → Bool} {flag : Entry → Option Bool}
    {r : List (Nat × Key) × Nat × Nodes} (h : markWhile p flag g slot = some r) :
    g.SameRows r.2.2 := by
  refine Nodes.markWhile.partial_correctness p flag (fun g _ r => g.SameRows r.2.2) ?_ g slot r h
  intro markWhile ih g slot r h
  split at h
  · cases h
    exact .refl g
  obtain ⟨n, -, h⟩ := Option.bind_eq_some_iff.1 h
  split at h
  · split at h
    · obtain ⟨next, -, h⟩ := Option.bind_eq_some_iff.1 h
      exact ih _ _ _ h
    · simp only [Option.bind_eq_bind, Option.bind_eq_some_iff] at h
      obtain ⟨g₁, h₁, next, -, rest, hrest, h⟩ := h
      cases h
      exact (sameRows_setHidden h₁).trans (ih _ _ rest hrest)
  · cases h
    exact .refl g

theorem sameRows_unlink {r : Nodes × Nat} (h : g.unlink slot = some r) : g.SameRows r.1 := by
  obtain ⟨n, -, h⟩ := Option.bind_eq_some_iff.1 h
  have hrelink {g₀ : Nodes} {child : Option Nat} {rest : Nat} (h₀ : g.SameRows g₀)
      (h : ((g₀.link (n.parent.getD 0) n.side child).bind (·.rebalance rest)) = some r) :
      g.SameRows r.1 := by
    obtain ⟨g₁, h₁, h₂⟩ := Option.bind_eq_some_iff.1 h
    exact h₀.trans ((sameRows_link h₁).trans (sameRows_rebalance h₂))
  dsimp only at h
  split at h
  · exact hrelink (.refl g) h
  · exact hrelink (.refl g) h
  · exact hrelink (.refl g) h
  · obtain ⟨last, -, h⟩ := Option.bind_eq_some_iff.1 h
    obtain ⟨m, -, h⟩ := Option.bind_eq_some_iff.1 h
    split at h
    · obtain ⟨g₁, h₁, h⟩ := Option.bind_eq_some_iff.1 h
      cases h₁
      obtain ⟨g₂, h₂, h⟩ := Option.bind_eq_some_iff.1 h
      exact hrelink (sameRows_link h₂) h
    · obtain ⟨g₁, h₁, h⟩ := Option.bind_eq_some_iff.1 h
      obtain ⟨g₂, h₂, h⟩ := Option.bind_eq_some_iff.1 h
      obtain ⟨g₃, h₃, h⟩ := Option.bind_eq_some_iff.1 h
      exact hrelink ((sameRows_link h₁).trans ((sameRows_link h₂).trans (sameRows_link h₃))) h

end LiveTable.Nodes
