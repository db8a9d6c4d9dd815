import LiveTable.Pool

/-!
# Sound pools

A pool is sound if it lists every vacant slot once and its ground is occupied. It then hands out
only vacant slots, so that a value stays in its slot until it is taken out of it (`get?_alloc`,
`get?_release`), and `size` counts the values (`size_alloc`, `size_release`).
-/

namespace LiveTable.Pool

variable {α : Type}

/-- The slots to hand out are the empty ones, each once, and slot 0 is not among them. -/
structure Sound (p : Pool α) : Prop where
  nodup : p.vacant.Nodup
  mem_vacant_iff (slot : Nat) : slot ∈ p.vacant ↔ p.slots[slot]? = some none
  ground : p.get? 0 ≠ none

theorem sound_withGround (a : α) : (withGround a).Sound where
  nodup := List.nodup_nil
  mem_vacant_iff slot := by cases slot <;> simp [withGround]
  ground := by simp [get?_withGround]

section

variable {p q : Pool α} {a : α} {slot : Nat}

theorem get?_eq_some_iff : p.get? slot = some a ↔ p.slots[slot]? = some (some a) := by
  simp [get?, Option.join_eq_some_iff]

theorem Sound.not_mem_vacant (h : p.Sound) (ha : p.get? slot = some a) : slot ∉ p.vacant := by
  rw [h.mem_vacant_iff, get?_eq_some_iff.1 ha]
  simp

theorem Sound.zero_not_mem (h : p.Sound) : 0 ∉ p.vacant := by
  obtain ⟨a, ha⟩ := Option.ne_none_iff_exists'.1 h.ground
  exact h.not_mem_vacant ha

/-- There are always more slots than vacant ones, for the ground is not vacant. -/
theorem Sound.length_vacant_lt (h : p.Sound) : p.vacant.length < p.slots.size := by
  have hn : (0 :: p.vacant).Nodup := List.nodup_cons.2 ⟨h.zero_not_mem, h.nodup⟩
  have hs : 0 :: p.vacant ⊆ List.range p.slots.size := by
    intro slot hslot
    rw [List.mem_range]
    rcases List.mem_cons.1 hslot with rfl | hv
    · obtain ⟨a, ha⟩ := Option.ne_none_iff_exists'.1 h.ground
      exact (Array.getElem?_eq_some_iff.1 (get?_eq_some_iff.1 ha)).1
    · exact (Array.getElem?_eq_some_iff.1 ((h.mem_vacant_iff slot).1 hv)).1
  have hl := List.Nodup.length_le_of_subset hn hs
  rw [List.length_range, List.length_cons] at hl
  exact hl

/-! ## Putting in -/

theorem Sound.alloc_fst (h : p.Sound) (a : α) :
    p.get? (p.alloc a).1 = none ∧ (p.alloc a).1 ≠ 0 := by
  unfold alloc
  split
  · rename_i slot rest hv
    have hm : slot ∈ p.vacant := by simp [hv]
    refine ⟨by simp [get?, (h.mem_vacant_iff slot).1 hm], ?_⟩
    rintro rfl
    exact h.zero_not_mem hm
  · have := h.length_vacant_lt
    exact ⟨by simp [get?], by simp only; omega⟩

theorem Sound.get?_alloc (h : p.Sound) (a : α) (slot : Nat) :
    (p.alloc a).2.get? slot = if slot = (p.alloc a).1 then some a else p.get? slot := by
  unfold alloc
  split
  · rename_i s rest hv
    have hs := (h.mem_vacant_iff s).1 (by simp [hv])
    have hlt := (Array.getElem?_eq_some_iff.1 hs).1
    simp only [get?, Array.getElem?_setIfInBounds]
    by_cases he : slot = s
    · simp [he, hlt]
    · simp [he, Ne.symm he]
  · simp only [get?, Array.getElem?_push]
    split <;> simp

theorem Sound.alloc (h : p.Sound) (a : α) : (p.alloc a).2.Sound := by
  have hg : (p.alloc a).2.get? 0 ≠ none := by
    rw [h.get?_alloc, if_neg (h.alloc_fst a).2.symm]
    exact h.ground
  unfold Pool.alloc at hg ⊢
  split
  · rename_i s rest hv
    have hn := h.nodup
    have hs := (h.mem_vacant_iff s).1 (by simp [hv])
    have hlt := (Array.getElem?_eq_some_iff.1 hs).1
    rw [hv, List.nodup_cons] at hn
    refine ⟨hn.2, fun slot => ?_, by simpa [hv] using hg⟩
    simp only [Array.getElem?_setIfInBounds]
    by_cases he : slot = s
    · simp [he, hn.1, hlt]
    · rw [if_neg (Ne.symm he), ← h.mem_vacant_iff slot, hv]
      simp [he]
  · rename_i hv
    refine ⟨List.nodup_nil, fun slot => ?_, by simpa [hv] using hg⟩
    have hm := h.mem_vacant_iff slot
    simp only [Array.getElem?_push]
    rw [hv] at hm
    split
    · simp
    · exact hm

theorem Sound.size_alloc (h : p.Sound) (a : α) : (p.alloc a).2.size = p.size + 1 := by
  have := h.length_vacant_lt
  unfold Pool.alloc size
  split
  · rename_i slot rest hv
    simp only [hv, List.length_cons, Array.size_setIfInBounds] at this ⊢
    omega
  · rename_i hv
    simp only [hv, List.length_nil, Array.size_push] at this ⊢
    omega

/-! ## Taking out -/

theorem release?_of_get? (hs : slot ≠ 0) (ha : p.get? slot = some a) :
    p.release? slot = some (a, ⟨p.slots.setIfInBounds slot none, slot :: p.vacant⟩) := by
  simp [release?, hs, ha]

theorem release?_eq_some_iff :
    p.release? slot = some (a, q) ↔ slot ≠ 0 ∧ p.get? slot = some a ∧
      q = ⟨p.slots.setIfInBounds slot none, slot :: p.vacant⟩ := by
  by_cases hs : slot = 0
  · simp [release?, hs]
  · simp only [release?, hs, if_false, Option.map_eq_some_iff, Prod.mk.injEq]
    constructor
    · rintro ⟨b, hb, rfl, rfl⟩
      exact ⟨hs, hb, rfl⟩
    · rintro ⟨-, hb, rfl⟩
      exact ⟨a, hb, rfl, rfl⟩

theorem get?_release (h : p.release? slot = some (a, q)) (other : Nat) :
    q.get? other = if other = slot then none else p.get? other := by
  obtain ⟨-, ha, rfl⟩ := release?_eq_some_iff.1 h
  simp only [get?, Array.getElem?_setIfInBounds]
  by_cases he : other = slot
  · rw [if_pos he.symm, if_pos he]
    split <;> rfl
  · simp [he, Ne.symm he]

theorem Sound.release (hp : p.Sound) (h : p.release? slot = some (a, q)) : q.Sound := by
  have hg : q.get? 0 ≠ none := by
    rw [get?_release h, if_neg (release?_eq_some_iff.1 h).1.symm]
    exact hp.ground
  obtain ⟨-, ha, rfl⟩ := release?_eq_some_iff.1 h
  have hlt := (Array.getElem?_eq_some_iff.1 (get?_eq_some_iff.1 ha)).1
  refine ⟨List.nodup_cons.2 ⟨hp.not_mem_vacant ha, hp.nodup⟩, fun other => ?_, hg⟩
  simp only [Array.getElem?_setIfInBounds, List.mem_cons, hp.mem_vacant_iff]
  by_cases he : other = slot
  · simp [he, hlt]
  · simp [he, Ne.symm he]

theorem Sound.size_release (hp : p.Sound) (h : p.release? slot = some (a, q)) :
    p.size = q.size + 1 := by
  have hl := (hp.release h).length_vacant_lt
  obtain ⟨-, -, rfl⟩ := release?_eq_some_iff.1 h
  simp only [size, List.length_cons, Array.size_setIfInBounds] at hl ⊢
  omega

/-! ## Dropping everything -/

theorem getElem?_slots_clear (p : Pool α) (slot : Nat) :
    p.clear.slots[slot]? = if slot = 0 then p.slots[0]? else none := by
  simp only [clear, Array.take_eq_extract, Array.getElem?_extract]
  cases slot with
  | zero =>
    rw [if_pos rfl]
    split
    · simp
    · rename_i h
      exact (Array.getElem?_eq_none (by omega)).symm
  | succ n => rw [if_neg (by omega), if_neg (by omega)]

theorem get?_clear (p : Pool α) (slot : Nat) :
    p.clear.get? slot = if slot = 0 then p.get? 0 else none := by
  rw [get?, getElem?_slots_clear]
  split <;> rfl

theorem Sound.clear (h : p.Sound) : p.clear.Sound := by
  have hg : p.clear.get? 0 ≠ none := by
    rw [get?_clear, if_pos rfl]
    exact h.ground
  refine ⟨List.nodup_nil, fun slot => ?_, hg⟩
  rw [getElem?_slots_clear]
  split
  · rename_i h0
    rw [← h.mem_vacant_iff]
    simp [Pool.clear, h.zero_not_mem]
  · simp [Pool.clear]

theorem clear_eq (h : p.get? 0 = some a) : p.clear = withGround a := by
  refine congrArg (Pool.mk · []) (Array.ext_getElem? fun slot => ?_)
  have hslots := p.getElem?_slots_clear slot
  rw [get?_eq_some_iff.1 h] at hslots
  refine hslots.trans ?_
  cases slot with
  | zero => rfl
  | succ slot => simp

@[simp] theorem size_clear (p : Pool α) : p.clear.size = 0 := by
  simp only [size, clear, Array.take_eq_extract, Array.size_extract, List.length_nil]
  omega

end

end LiveTable.Pool
