import LiveTable.Tree.Rank
import LiveTable.Tree.Search
import LiveTable.Tree.Span

/-!
# Where walks and descents end

Every walk stays in the list of rows of its tree: what lies ahead of its end is a final part of
what lay ahead of its start (`gather_split`). A selection by rank ends on the visible row with
that many visible rows before it (`Tree.select_some`).
-/

namespace LiveTable

/-! ## Walks -/

theorem reach_subset (side : Side) (f : Focus) : reach side (some f) ⊆ f.plug.toList := by
  intro e he
  rw [f.toList_plug, List.mem_append, List.mem_cons]
  rcases List.mem_cons.1 he with rfl | he
  · exact .inr (.inl rfl)
  · cases side with
    | left => exact .inl (List.mem_reverse.2 he)
    | right => exact .inr (.inr he)

theorem head?_reach (side : Side) (f : Option Focus) :
    (reach side f).head? = f.map (·.entry) := by
  cases f <;> rfl

/-- The rows up to the end of a walk are read, as far as they are wanted. The walk ends right after
the last row that it reads, or short of its count where no row is left. -/
theorem gather_split (side : Side) (wanted : Entry → Bool) (count : Nat) (start : Option Focus) :
    ∃ passed, reach side start = passed ++ reach side (gather side wanted count start).2 ∧
      (gather side wanted count start).1 = passed.filter wanted ∧
      ((gather side wanted count start).1.length = count ∧
          passed.getLast? = (gather side wanted count start).1.getLast? ∨
        (gather side wanted count start).1.length < count ∧
          (gather side wanted count start).2 = none) := by
  fun_induction gather side wanted count start with
  | case1 start => exact ⟨[], rfl, rfl, .inl ⟨rfl, rfl⟩⟩
  | case2 n => exact ⟨[], rfl, rfl, .inr ⟨Nat.succ_pos n, rfl⟩⟩
  | case3 n f hw rows stop hs ih =>
    rw [hs, reach_step] at ih
    obtain ⟨passed, h1, h2, h3⟩ := ih
    refine ⟨f.entry :: passed, ?_, ?_, ?_⟩
    · simp only at h1 ⊢
      rw [reach, h1, List.cons_append]
    · simp only at h2 ⊢
      rw [List.filter_cons_of_pos hw, ← h2]
    · simp only [List.length_cons, List.getLast?_cons] at h3 ⊢
      exact h3.imp (fun h => ⟨by rw [h.1], by rw [h.2]⟩) fun h => ⟨Nat.succ_lt_succ h.1, h.2⟩
  | case4 n f hw ih =>
    rw [reach_step] at ih
    obtain ⟨passed, h1, h2, h3⟩ := ih
    refine ⟨f.entry :: passed, ?_, ?_, h3.imp_left fun h => ⟨h.1, ?_⟩⟩
    · rw [reach, h1, List.cons_append]
    · rw [List.filter_cons_of_neg hw, h2]
    · -- as some row is read after this one, it is not the last that is passed
      rw [List.getLast?_cons, h.2]
      cases hr : (gather side wanted (n + 1) (f.step side)).1 with
      | nil => simp [hr] at h
      | cons e rest => rw [List.getLast?_cons, Option.getD_some]

theorem reach_ascend (side : Side) (above : List Crumb) (t : Tree) :
    reach side (ascend side above t) = rowsAbove side above := by
  cases h : ascend side above t with
  | none => rw [ascend_none h]; rfl
  | some f => rw [(ascend_some h).1]; rfl

theorem Focus.step_left_key (f : Focus) :
    (f.step .left).map (·.key) = f.before.getLast?.map (·.key) := by
  rw [before, List.getLast?_reverse]
  cases h : f.step .left with
  | none => rw [step_none h]; rfl
  | some g => rw [(step_some h).1]; rfl

theorem reach_outermost (t : Tree) : reach .right (t.outermost .left []) = t.toList := by
  cases h : t.outermost .left [] with
  | none => rw [Tree.outermost_eq_none_iff.1 h]; rfl
  | some f =>
    have h1 := (Tree.outermost_some h).1
    simp only [Side.other, Tree.listing, rowsAbove, List.flatMap_nil, List.append_nil] at h1
    exact h1.symm

/-! ## Selection -/

theorem visibleCount_reverse (rows : List Entry) : visibleCount rows.reverse = visibleCount rows :=
  List.countP_reverse

namespace Tree

theorem select_some {t : Tree} (h : t.Counted) {rank : Nat} (hr : rank < visibleCount t.toList)
    (above : List Crumb) : ∃ f, t.select rank above = some f ∧
      visibleCount f.before = visibleCount (rowsAbove .left above) + rank := by
  induction t generalizing rank above with
  | nil => simp [visibleCount] at hr
  | node l c r ihl ihr =>
    have hl := h.1.visible_eq
    rw [toList_node, visibleCount_append, visibleCount_cons] at hr
    -- what the right side is entered with: the left side and the cell have been passed
    have right (rank' : Nat) (hr' : rank' < visibleCount r.toList)
        (hc : rank = visibleCount l.toList + c.weight + rank') :
        ∃ f, r.select rank' (⟨.right, c, l⟩ :: above) = some f ∧
          visibleCount f.before = visibleCount (rowsAbove .left above) + rank := by
      obtain ⟨f, hf, hb⟩ := ihr h.2.1 hr' (⟨.right, c, l⟩ :: above)
      refine ⟨f, hf, hb.trans ?_⟩
      have ho : Crumb.onward .left ⟨.right, c, l⟩ = c.toEntry :: l.toList.reverse := by
        simp [Crumb.onward, Side.other, listing]
      rw [rowsAbove_cons, ho, visibleCount_append, visibleCount_cons, visibleCount_reverse]
      omega
    simp only [select]
    rw [hl]
    split
    · rename_i hlt
      obtain ⟨f, hf, hb⟩ := ihl h.1 hlt (⟨.left, c, r⟩ :: above)
      refine ⟨f, hf, ?_⟩
      rw [hb, rowsAbove_cons, Crumb.onward_of_ne _ (Side.ne_other .left), List.nil_append]
    · rename_i hge
      split
      · rename_i hh
        have hw : c.weight = 0 := by simp [Entry.weight, hh]
        exact right _ (by omega) (by omega)
      · rename_i hh
        have hw : c.weight = 1 := by simp [Entry.weight, hh]
        split
        · rename_i heq
          refine ⟨_, rfl, ?_⟩
          rw [Focus.before, visibleCount_reverse, Focus.onward, visibleCount_append, heq]
          simp only [Focus.child, listing, visibleCount_reverse]
          omega
        · exact right _ (by omega) (by omega)

theorem select_none {t : Tree} (h : t.Counted) {rank : Nat} (hr : visibleCount t.toList ≤ rank)
    (above : List Crumb) : t.select rank above = none := by
  induction t generalizing rank above with
  | nil => rfl
  | node l c r _ ihr =>
    have hl := h.1.visible_eq
    rw [toList_node, visibleCount_append, visibleCount_cons] at hr
    simp only [select]
    rw [hl, if_neg (by omega)]
    split
    · rename_i hh
      have hw : c.weight = 0 := by simp [Entry.weight, hh]
      exact ihr h.2.1 (by omega) _
    · rename_i hh
      have hw : c.weight = 1 := by simp [Entry.weight, hh]
      rw [if_neg (by omega)]
      exact ihr h.2.1 (by omega) _

/-! ## Gaps -/

/-- Where the rows to go to the left of stand together at the end, the gap is before the first of
them. -/
theorem rowsAbove_gap {goLeft : Entry → Bool} {t : Tree}
    (h : t.toList.Pairwise fun a b => goLeft a = true → goLeft b = true) (above : List Crumb) :
    rowsAbove .left (t.gap goLeft above) =
        (t.toList.filter (!goLeft ·)).reverse ++ rowsAbove .left above ∧
      rowsAbove .right (t.gap goLeft above) =
        t.toList.filter goLeft ++ rowsAbove .right above := by
  induction t generalizing above with
  | nil => exact ⟨rfl, rfl⟩
  | node l c r ihl ihr =>
    rw [toList_node, List.pairwise_append, List.pairwise_cons] at h
    obtain ⟨hl, ⟨hcr, hr⟩, hlc⟩ := h
    rw [gap, toList_node]
    split
    · rename_i hc
      have hall : ∀ e ∈ r.toList, goLeft e = true := fun e he => hcr e he hc
      obtain ⟨h1, h2⟩ := ihl hl (⟨.left, c, r⟩ :: above)
      rw [h1, h2]
      have hr1 : r.toList.filter goLeft = r.toList := List.filter_eq_self.2 hall
      have hr2 : r.toList.filter (!goLeft ·) = [] := by
        rw [List.filter_eq_nil_iff]
        intro e he
        simp [hall e he]
      simp [rowsAbove_cons, Crumb.onward, Side.other, listing, hc, hr1, hr2]
    · rename_i hc
      have hall : ∀ e ∈ l.toList, goLeft e = false := by
        intro e he
        cases hg : goLeft e with
        | false => rfl
        | true => exact absurd (hlc e he c.toEntry List.mem_cons_self hg) hc
      obtain ⟨h1, h2⟩ := ihr hr (⟨.right, c, l⟩ :: above)
      rw [h1, h2]
      have hl1 : l.toList.filter goLeft = [] := by
        rw [List.filter_eq_nil_iff]
        intro e he
        simp [hall e he]
      have hl2 : l.toList.filter (!goLeft ·) = l.toList :=
        List.filter_eq_self.2 fun e he => by simp [hall e he]
      simp [rowsAbove_cons, Crumb.onward, Side.other, listing, hc, hl1, hl2]

theorem toList_gap (goLeft : Entry → Bool) (t : Tree) :
    (rowsAbove .left (t.gap goLeft [])).reverse ++ rowsAbove .right (t.gap goLeft []) =
      t.toList := by
  have h := toList_plugAll (t.gap goLeft []) nil
  rw [plugAll_gap, toList_nil, List.append_nil] at h
  exact h.symm

end Tree

end LiveTable
