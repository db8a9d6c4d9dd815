import LiveTable.Proofs.Pool
import LiveTable.Store

/-!
# Sound stores

A store is sound if every key of its index leads to a slot that holds the row with that key, and
there are as many keys as occupied slots. Such a store is a finite map from keys to rows: the
lemmas say what `insert`, `erase` and `clear` do to `find?`, to `size` and to the index.
-/

namespace LiveTable.Store

/-- The index leads to the rows of the pool, each under its own key. -/
structure Sound (s : Store) : Prop where
  pool : s.pool.Sound
  row_of_slot (key : Key) (slot : Nat) :
    s.index[key]? = some slot → slot ≠ 0 ∧ ∃ r, s.pool.get? slot = some r ∧ r.key = key
  size_eq : s.index.size = s.pool.size

theorem sound_empty : empty.Sound where
  pool := Pool.sound_withGround _
  row_of_slot key slot h := by simp [empty] at h
  size_eq := by simp [empty]

section

variable {s : Store}

theorem find?_eq_some_iff {key : Key} {r : Row} :
    s.find? key = some r ↔ ∃ slot, s.index[key]? = some slot ∧ s.pool.get? slot = some r :=
  Option.bind_eq_some_iff

theorem Sound.key_of_find? (h : s.Sound) {key : Key} {r : Row} (hf : s.find? key = some r) :
    r.key = key := by
  obtain ⟨slot, hi, hg⟩ := find?_eq_some_iff.1 hf
  obtain ⟨-, r', hg', hk⟩ := h.row_of_slot key slot hi
  rw [hg] at hg'
  cases hg'
  exact hk

theorem Sound.key_eq_of_slot (h : s.Sound) {a b : Key} {slot : Nat} (ha : s.index[a]? = some slot)
    (hb : s.index[b]? = some slot) : a = b := by
  obtain ⟨-, r, hr, hra⟩ := h.row_of_slot a slot ha
  obtain ⟨-, r', hr', hrb⟩ := h.row_of_slot b slot hb
  rw [hr] at hr'
  cases hr'
  rw [← hra, hrb]

theorem Sound.find?_eq_none_iff (h : s.Sound) {key : Key} :
    s.find? key = none ↔ s.index[key]? = none := by
  constructor
  · intro hf
    cases hi : s.index[key]? with
    | none => rfl
    | some slot =>
      obtain ⟨-, r, hg, -⟩ := h.row_of_slot key slot hi
      rw [find?_eq_some_iff.2 ⟨slot, hi, hg⟩] at hf
      cases hf
  · intro hi
    rw [find?, hi]
    rfl

theorem Sound.contains_eq (h : s.Sound) (key : Key) : s.contains key = (s.find? key).isSome := by
  rw [contains, Std.HashMap.contains_eq_isSome_getElem?]
  cases hf : s.find? key with
  | none => rw [h.find?_eq_none_iff.1 hf]; rfl
  | some r =>
    obtain ⟨slot, hi, -⟩ := find?_eq_some_iff.1 hf
    rw [hi]
    rfl

/-! ## Adding a row -/

theorem Sound.slot_ne_alloc (h : s.Sound) {key : Key} {slot : Nat} (r : Row)
    (hi : s.index[key]? = some slot) : slot ≠ (s.pool.alloc r).1 := by
  rintro rfl
  obtain ⟨-, r', hg, -⟩ := h.row_of_slot key _ hi
  rw [(h.pool.alloc_fst r).1] at hg
  cases hg

theorem Sound.find?_insert (h : s.Sound) (r : Row) (key : Key) :
    (s.insert r).find? key = if key = r.key then some r else s.find? key := by
  simp only [insert, find?, Std.HashMap.getElem?_insert, beq_iff_eq]
  by_cases hk : r.key = key
  · simp [hk, h.pool.get?_alloc]
  · rw [if_neg hk, if_neg (Ne.symm hk)]
    cases hi : s.index[key]? with
    | none => rfl
    | some slot =>
      rw [Option.bind_some, h.pool.get?_alloc, if_neg (h.slot_ne_alloc r hi)]
      rfl

theorem Sound.insert (h : s.Sound) {r : Row} (hr : s.find? r.key = none) : (s.insert r).Sound where
  pool := h.pool.alloc r
  row_of_slot key slot hi := by
    simp only [Store.insert, Std.HashMap.getElem?_insert, beq_iff_eq] at hi ⊢
    rw [h.pool.get?_alloc]
    by_cases hk : r.key = key
    · rw [if_pos hk] at hi
      cases hi
      exact ⟨(h.pool.alloc_fst r).2, r, if_pos rfl, hk⟩
    · rw [if_neg hk] at hi
      rw [if_neg (h.slot_ne_alloc r hi)]
      exact h.row_of_slot key slot hi
  size_eq := by
    have hm : r.key ∉ s.index := by
      rw [Std.HashMap.mem_iff_isSome_getElem?, h.find?_eq_none_iff.1 hr]
      simp
    simp only [Store.insert, Std.HashMap.size_insert, hm, if_false, h.pool.size_alloc, h.size_eq]

theorem Sound.size_insert (h : s.Sound) (r : Row) : (s.insert r).size = s.size + 1 :=
  h.pool.size_alloc r

theorem getElem?_index_insert (s : Store) {r : Row} {key : Key} (hk : key ≠ r.key) :
    (s.insert r).index[key]? = s.index[key]? := by
  simp only [insert, Std.HashMap.getElem?_insert, beq_iff_eq]
  exact if_neg (Ne.symm hk)

/-! ## Taking a row out -/

theorem Sound.erase_of_find? (h : s.Sound) {key : Key} {r : Row} (hf : s.find? key = some r) :
    ∃ slot pool, s.index[key]? = some slot ∧ s.pool.release? slot = some (r, pool) ∧
      s.erase key = ⟨s.index.erase key, pool⟩ := by
  obtain ⟨slot, hi, hg⟩ := find?_eq_some_iff.1 hf
  have hr := Pool.release?_of_get? (h.row_of_slot key slot hi).1 hg
  exact ⟨slot, _, hi, hr, by simp only [erase, hi, hr]⟩

theorem Sound.find?_erase (h : s.Sound) (key other : Key) :
    (s.erase key).find? other = if other = key then none else s.find? other := by
  cases hf : s.find? key with
  | none =>
    have hi := h.find?_eq_none_iff.1 hf
    rw [erase, hi]
    by_cases hk : other = key
    · rw [if_pos hk, hk, hf]
    · rw [if_neg hk]
  | some r =>
    obtain ⟨slot, pool, hi, hr, he⟩ := h.erase_of_find? hf
    simp only [he, find?, Std.HashMap.getElem?_erase, beq_iff_eq]
    by_cases hk : key = other
    · rw [if_pos hk, if_pos hk.symm]
      rfl
    · rw [if_neg hk, if_neg (Ne.symm hk)]
      cases ho : s.index[other]? with
      | none => rfl
      | some slot' =>
        have hne : slot' ≠ slot := fun he' => hk (h.key_eq_of_slot (he' ▸ hi) ho)
        rw [Option.bind_some, Option.bind_some, Pool.get?_release hr, if_neg hne]

theorem Sound.erase (h : s.Sound) (key : Key) : (s.erase key).Sound := by
  cases hf : s.find? key with
  | none =>
    rw [Store.erase, h.find?_eq_none_iff.1 hf]
    exact h
  | some r =>
    obtain ⟨slot, pool, hi, hr, he⟩ := h.erase_of_find? hf
    have hm : key ∈ s.index := by rw [Std.HashMap.mem_iff_isSome_getElem?, hi]; rfl
    rw [he]
    refine ⟨h.pool.release hr, fun other slot' ho => ?_, ?_⟩
    · simp only [Std.HashMap.getElem?_erase, beq_iff_eq] at ho
      split at ho
      · cases ho
      · rename_i hk
        obtain ⟨h0, r', hg', hk'⟩ := h.row_of_slot other slot' ho
        have hne : slot' ≠ slot := fun he' => hk (h.key_eq_of_slot (he' ▸ hi) ho)
        exact ⟨h0, r', by rw [Pool.get?_release hr, if_neg hne, hg'], hk'⟩
    · have := h.pool.size_release hr
      have := h.size_eq
      simp only [Std.HashMap.size_erase, hm, if_true]
      omega

theorem getElem?_index_erase (s : Store) {key other : Key} (hk : other ≠ key) :
    (s.erase key).index[other]? = s.index[other]? := by
  have he : (s.index.erase key)[other]? = s.index[other]? := by
    rw [Std.HashMap.getElem?_erase, if_neg (by simpa using Ne.symm hk)]
  unfold erase
  split
  · rfl
  · split
    all_goals exact he

theorem Sound.size_erase (h : s.Sound) {key : Key} {r : Row} (hf : s.find? key = some r) :
    s.size = (s.erase key).size + 1 := by
  obtain ⟨slot, pool, -, hr, he⟩ := h.erase_of_find? hf
  rw [he]
  exact h.pool.size_release hr

/-! ## Dropping everything -/

theorem Sound.clear (h : s.Sound) : s.clear.Sound where
  pool := h.pool.clear
  row_of_slot key slot hi := by simp [Store.clear] at hi
  size_eq := by simp [Store.clear]

@[simp] theorem find?_clear (s : Store) (key : Key) : s.clear.find? key = none := by
  simp [find?, clear]

@[simp] theorem size_clear (s : Store) : s.clear.size = 0 := Pool.size_clear _

end

end LiveTable.Store
