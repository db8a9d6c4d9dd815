import LiveTable.Proofs.Pool
import Mathlib.Data.List.Nodup

/-!
# Pools and their callers

A caller knows a slot by a word of 32 bits and keeps a ledger: which values it has in which slots,
and which slots it has given back. It writes down nothing but its calls and what they were answered.
Whatever it calls, in whatever order, the pool holds what the ledger says and hands out what the
ledger says is free (`Kept.follow`), so that no slot ever serves two values (`exclusive_run`).
-/

namespace LiveTable.Pool

variable {α : Type}

/-- What a caller may ask of a pool; it may try to take from any slot at all. -/
inductive Call (α : Type) where
  | put (a : α)
  | take (slot : UInt32)
  | clear

inductive Answer (α : Type) where
  | slot (number : UInt32)
  | full
  | value (a? : Option α)
  | done

/-- There is a vacant slot, or a word to number one more with. -/
def HasRoom (p : Pool α) : Prop := p.vacant ≠ [] ∨ p.slots.size < UInt32.size

instance (p : Pool α) : Decidable p.HasRoom := inferInstanceAs (Decidable (_ ∨ _))

/-- The answer to a call, and the pool after it. Room is made sure of before anything is put in. -/
def perform (p : Pool α) : Call α → Answer α × Pool α
  | .put a =>
    if p.HasRoom then (.slot (.ofNat (p.alloc a).1), (p.alloc a).2) else (.full, p)
  | .take slot =>
    match p.release? slot.toNat with
    | some (a, q) => (.value (some a), q)
    | none => (.value none, p)
  | .clear => (.done, p.clear)

/-- What the caller has in the pool and what it has given back, the latest first. -/
structure Ledger (α : Type) where
  held : List (UInt32 × α)
  vacated : List UInt32

def Ledger.note (l : Ledger α) : Call α → Answer α → Ledger α
  | .put a, .slot number => ⟨(number, a) :: l.held, l.vacated.erase number⟩
  | .take slot, .value (some _) => ⟨l.held.filter (·.1 ≠ slot), slot :: l.vacated⟩
  | .clear, _ => ⟨[], []⟩
  | _, _ => l

def follow (s : Pool α × Ledger α) (c : Call α) : Pool α × Ledger α :=
  ((s.1.perform c).2, s.2.note c (s.1.perform c).1)

def run (ground : α) (calls : List (Call α)) : Pool α × Ledger α :=
  calls.foldl follow (withGround ground, ⟨[], []⟩)

/-! ## One call -/

/-- The ledger is right: it lists the values of the pool but for the ground, each once, and the
vacant slots in the order in which they are handed out. -/
structure Kept (ground : α) (p : Pool α) (l : Ledger α) : Prop where
  sound : p.Sound
  ground : p.get? 0 = some ground
  numbered : p.slots.size ≤ UInt32.size
  vacated : l.vacated.map UInt32.toNat = p.vacant
  held (slot : UInt32) (a : α) : (slot, a) ∈ l.held ↔ slot ≠ 0 ∧ p.get? slot.toNat = some a
  distinct : (l.held.map Prod.fst).Nodup
  count : l.held.length = p.size

section

variable {ground : α} {p : Pool α} {l : Ledger α}

theorem kept_withGround (ground : α) : (withGround ground).Kept ground ⟨[], []⟩ where
  sound := sound_withGround ground
  ground := rfl
  numbered := show 1 ≤ UInt32.size by decide
  vacated := rfl
  held slot a := by
    have hne : slot ≠ 0 → slot.toNat ≠ 0 := fun h h0 => h (UInt32.toNat_inj.1 h0)
    cases hn : slot.toNat with
    | zero => simpa using fun h => absurd hn (hne h)
    | succ n => simp [withGround, get?]
  distinct := List.nodup_nil
  count := rfl

/-- The number of the slot that is handed out is a word. -/
theorem Kept.alloc_fst_lt (h : p.Kept ground l) (hroom : p.HasRoom) (a : α) :
    (p.alloc a).1 < UInt32.size := by
  have hn := h.numbered
  unfold alloc
  split
  · rename_i slot rest hv
    have hs := (h.sound.mem_vacant_iff slot).1 (by simp [hv])
    have hlt := (Array.getElem?_eq_some_iff.1 hs).1
    simp only
    omega
  · rename_i hv
    exact hroom.resolve_left fun hne => hne hv

theorem Kept.toNat_alloc (h : p.Kept ground l) (hroom : p.HasRoom) (a : α) :
    (UInt32.ofNat (p.alloc a).1).toNat = (p.alloc a).1 :=
  UInt32.toNat_ofNat_of_lt' (h.alloc_fst_lt hroom a)

/-- The slot that is handed out is no longer vacant, and the others still are, in their order. -/
theorem Kept.vacated_alloc (h : p.Kept ground l) (a : α) :
    (l.vacated.erase (.ofNat (p.alloc a).1)).map UInt32.toNat = (p.alloc a).2.vacant := by
  have hv := h.vacated
  unfold alloc
  cases hp : p.vacant with
  | nil =>
    rw [hp, List.map_eq_nil_iff] at hv
    simp [hv]
  | cons slot rest =>
    rw [hp, List.map_eq_cons_iff] at hv
    obtain ⟨word, words, hl, rfl, rfl⟩ := hv
    simp [hl]

theorem numbered_alloc (hn : p.slots.size ≤ UInt32.size) (hroom : p.HasRoom) (a : α) :
    (p.alloc a).2.slots.size ≤ UInt32.size := by
  unfold alloc
  split
  · simpa using hn
  · rename_i hv
    have hlt := hroom.resolve_left fun hne => hne hv
    simp only [Array.size_push]
    omega

theorem Kept.put (h : p.Kept ground l) (hroom : p.HasRoom) (a : α) :
    (p.alloc a).2.Kept ground
      ⟨(.ofNat (p.alloc a).1, a) :: l.held, l.vacated.erase (.ofNat (p.alloc a).1)⟩ := by
  obtain ⟨hnone, hne⟩ := h.sound.alloc_fst a
  have hword := h.toNat_alloc hroom a
  have hget := h.sound.get?_alloc a
  constructor
  case sound => exact h.sound.alloc a
  case ground => rw [hget, if_neg hne.symm, h.ground]
  case numbered => exact numbered_alloc h.numbered hroom a
  case vacated => exact h.vacated_alloc a
  case held =>
    intro slot b
    rw [List.mem_cons, h.held, hget, Prod.mk.injEq, ← UInt32.toNat_inj, hword]
    by_cases hs : slot.toNat = (p.alloc a).1
    · have hzero : slot ≠ 0 := fun h0 => hne (hs ▸ h0 ▸ rfl)
      simp [hs, hnone, hzero, eq_comm]
    · simp [hs]
  case distinct =>
    refine List.nodup_cons.2 ⟨fun hm => ?_, h.distinct⟩
    obtain ⟨⟨slot, b⟩, hb, rfl⟩ := List.mem_map.1 hm
    have hlive := ((h.held _ _).1 hb).2
    simp only [hword, hnone] at hlive
    cases hlive
  case count => rw [List.length_cons, h.count, h.sound.size_alloc]

theorem length_filter_fst_ne {β : Type} [DecidableEq β] {rows : List (β × α)} {key : β}
    (hd : (rows.map Prod.fst).Nodup) (hm : key ∈ rows.map Prod.fst) :
    (rows.filter (·.1 ≠ key)).length + 1 = rows.length := by
  have hone : rows.countP (·.1 = key) = 1 := by
    rw [← List.count_eq_one_of_mem hd hm, List.count, List.countP_map]
    exact List.countP_congr fun row _ => by simp
  rw [List.length_eq_countP_add_countP (fun row => row.1 = key) (l := rows), hone,
    ← List.countP_eq_length_filter, Nat.add_comm]
  simp

theorem Kept.take (h : p.Kept ground l) {slot : UInt32} {a : α} {q : Pool α}
    (hr : p.release? slot.toNat = some (a, q)) :
    q.Kept ground ⟨l.held.filter (·.1 ≠ slot), slot :: l.vacated⟩ := by
  obtain ⟨hne, ha, hq⟩ := release?_eq_some_iff.1 hr
  have hget := get?_release hr
  constructor
  case sound => exact h.sound.release hr
  case ground => rw [hget, if_neg hne.symm, h.ground]
  case numbered => simpa [hq] using h.numbered
  case vacated => rw [List.map_cons, h.vacated, hq]
  case held =>
    intro other b
    rw [List.mem_filter, h.held, hget]
    by_cases hs : other = slot
    · simp [hs]
    · simp [hs, UInt32.toNat_inj]
  case distinct => exact h.distinct.sublist (List.filter_sublist.map Prod.fst)
  case count =>
    have hheld : slot ∈ l.held.map Prod.fst :=
      List.mem_map_of_mem ((h.held slot a).2 ⟨fun h0 => hne (h0 ▸ rfl), ha⟩)
    have hlength := length_filter_fst_ne h.distinct hheld
    have hsize := h.sound.size_release hr
    have hcount := h.count
    simp only at hlength ⊢
    omega

theorem Kept.clear (h : p.Kept ground l) : p.clear.Kept ground ⟨[], []⟩ where
  sound := h.sound.clear
  ground := by rw [get?_clear, if_pos rfl, h.ground]
  numbered := by
    have hn := h.numbered
    simp only [Pool.clear, Array.take_eq_extract, Array.size_extract]
    omega
  vacated := rfl
  held slot a := by
    rw [get?_clear]
    by_cases hs : slot = 0
    · simp [hs]
    · have hn : slot.toNat ≠ 0 := fun h0 => hs (UInt32.toNat_inj.1 h0)
      simp [hn]
  distinct := List.nodup_nil
  count := (size_clear p).symm

/-- Every call leaves a right ledger right. -/
theorem Kept.follow (h : p.Kept ground l) (c : Call α) :
    (follow (p, l) c).1.Kept ground (follow (p, l) c).2 := by
  cases c with
  | put a =>
    simp only [Pool.follow, perform]
    split
    · rename_i hroom
      exact h.put hroom a
    · exact h
  | take slot =>
    simp only [Pool.follow, perform]
    split
    · rename_i hr
      exact h.take hr
    · exact h
  | clear => exact h.clear

/-- A right ledger stays right over a list of calls. -/
theorem kept_run (ground : α) (calls : List (Call α)) :
    (run ground calls).1.Kept ground (run ground calls).2 := by
  have hfrom (s : Pool α × Ledger α) (hs : s.1.Kept ground s.2) :
      (calls.foldl Pool.follow s).1.Kept ground (calls.foldl Pool.follow s).2 := by
    induction calls generalizing s with
    | nil => exact hs
    | cons c rest ih => exact ih _ (hs.follow c)
  exact hfrom _ (kept_withGround ground)

/-! ## No slot serves two values -/

/-- What a caller may rely on, whatever it has called before. -/
structure Exclusive (ground : α) (p : Pool α) (l : Ledger α) : Prop where
  /-- The slots to hand out are those given back and not handed out since, each once. -/
  vacant : p.vacant = l.vacated.map UInt32.toNat ∧ p.vacant.Nodup
  vacant_iff (slot : Nat) : slot ∈ p.vacant ↔ slot < p.slots.size ∧ p.get? slot = none
  held_iff (slot : UInt32) (a : α) :
    (slot, a) ∈ l.held ↔ slot ≠ 0 ∧ p.get? slot.toNat = some a
  held_nodup : (l.held.map Prod.fst).Nodup
  /-- Nothing is subtracted from too little when values are counted. -/
  size : p.vacant.length + 1 ≤ p.slots.size ∧ p.size = l.held.length
  ground : p.get? 0 = some ground
  put (a : α) : p.HasRoom → ∃ slot q, p.perform (.put a) = (.slot slot, q) ∧ slot ≠ 0 ∧
    p.get? slot.toNat = none ∧
      ∀ other : UInt32, q.get? other.toNat = if other = slot then some a else p.get? other.toNat
  take (slot : UInt32) (a : α) : slot ≠ 0 → p.get? slot.toNat = some a →
    ∃ q, p.perform (.take slot) = (.value (some a), q) ∧
      ∀ other : UInt32, q.get? other.toNat = if other = slot then none else p.get? other.toNat
  refuse (slot : UInt32) : slot = 0 ∨ p.get? slot.toNat = none →
    p.perform (.take slot) = (.value none, p)

theorem Sound.mem_vacant_iff_get? (h : p.Sound) (slot : Nat) :
    slot ∈ p.vacant ↔ slot < p.slots.size ∧ p.get? slot = none := by
  rw [h.mem_vacant_iff]
  by_cases hs : slot < p.slots.size
  · simp [get?, hs]
  · simp [hs]

theorem Kept.exclusive (h : p.Kept ground l) : Exclusive ground p l where
  vacant := ⟨h.vacated.symm, h.sound.nodup⟩
  vacant_iff := h.sound.mem_vacant_iff_get?
  held_iff := h.held
  held_nodup := h.distinct
  size := ⟨h.sound.length_vacant_lt, h.count.symm⟩
  ground := h.ground
  put a hroom := by
    obtain ⟨hnone, hne⟩ := h.sound.alloc_fst a
    have hword := h.toNat_alloc hroom a
    refine ⟨_, _, if_pos hroom, fun h0 => hne ?_, hword.symm ▸ hnone, fun other => ?_⟩
    · rw [← hword, h0]
      rfl
    · have hsame : other = .ofNat (p.alloc a).1 ↔ other.toNat = (p.alloc a).1 := by
        rw [← UInt32.toNat_inj, hword]
      simp only [h.sound.get?_alloc, hsame]
  take slot a hs ha := by
    have hne : slot.toNat ≠ 0 := fun h0 => hs (UInt32.toNat_inj.1 h0)
    have hr := release?_of_get? hne ha
    refine ⟨_, by rw [perform, hr], fun other => ?_⟩
    simp only [get?_release hr, UInt32.toNat_inj]
  refuse slot hs := by
    have hr : p.release? slot.toNat = none :=
      (release?_eq_none_iff p slot.toNat).2 (hs.imp_left (congrArg UInt32.toNat))
    rw [perform, hr]

/-- After any calls a slot that is handed out is free, and a slot that is given back is the only one
that changes. -/
theorem exclusive_run (ground : α) (calls : List (Call α)) :
    Exclusive ground (run ground calls).1 (run ground calls).2 :=
  (kept_run ground calls).exclusive

/-- A slot that is given back twice is handed out once: of two values that are put in afterwards
only the first one goes into it. -/
theorem exclusive_run_takenTwice :
    let calls : List (Call Nat) :=
      [.put 7, .put 8, .take 1, .take 1, .take 0, .take 9, .put 5, .put 6]
    let (p, l) := run 0 calls
    l.held = [(3, 6), (1, 5), (2, 8)] ∧ p.size = 3 ∧ p.get? 1 = some 5 ∧ p.get? 3 = some 6 ∧
      ∃ q, p.perform (.take 3) = (.value (some 6), q) ∧ q.get? 1 = some 5 := by
  intro calls
  have h := exclusive_run 0 calls
  have hheld : (run 0 calls).2.held = [(3, 6), (1, 5), (2, 8)] := by decide
  have hfirst := ((h.held_iff 1 5).1 (by rw [hheld]; decide)).2
  have hsecond := ((h.held_iff 3 6).1 (by rw [hheld]; decide)).2
  obtain ⟨q, hq, hothers⟩ := h.take 3 6 (by decide) hsecond
  exact ⟨hheld, h.size.2.trans (by rw [hheld]; rfl), hfirst, hsecond, q, hq,
    (hothers 1).trans hfirst⟩

end

end LiveTable.Pool
