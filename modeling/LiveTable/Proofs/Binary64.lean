import LiveTable.Binary64
import Mathlib

/-!
# The order of floating-point numbers

From one magnitude to the next the significand grows by one unit of the same power of two, or,
where the exponent steps up, to the same sum counted in units twice as large (`scale_succ`).
Values therefore grow with magnitudes (`size_strictMono`), and the order of patterns is that of
values (`compares_value`).
-/

namespace LiveTable.Binary64

/-- The value of a magnitude below that of the infinities. -/
def size (magnitude : Nat) : ℚ := significand magnitude * 2 ^ scale magnitude

/-- The value of a number that is not a NaN. -/
def value (x : Binary64) : WithBot (WithTop ℚ) :=
  if x.magnitude = infinity then if x.isNegative then ⊥ else ⊤
  else ((if x.isNegative then -size x.magnitude else size x.magnitude : ℚ) : WithTop ℚ)

/-! ## Magnitudes -/

theorem scale_succ (m : Nat) :
    scale (m + 1) = scale m ∧ significand (m + 1) = significand m + 1 ∨
    scale (m + 1) = scale m + 1 ∧ 2 * significand (m + 1) = significand m + 1 := by
  unfold scale significand leadingBit
  split
  · split <;> omega
  · split <;> omega

theorem size_strictMono : StrictMono size := by
  apply strictMono_nat_of_lt_succ
  intro m
  have hunit : (0 : ℚ) < 2 ^ scale m := zpow_pos two_pos _
  unfold size
  rcases scale_succ m with ⟨hscale, hsig⟩ | ⟨hscale, hsig⟩
  · rw [hscale, hsig]
    push_cast
    linarith
  · have hsig' : (2 * significand (m + 1) : ℚ) = significand m + 1 := by exact_mod_cast hsig
    calc (significand m : ℚ) * 2 ^ scale m
        < (significand m + 1) * 2 ^ scale m := by linarith
      _ = significand (m + 1) * 2 ^ scale (m + 1) := by
          rw [← hsig', hscale, zpow_add_one₀ two_ne_zero]
          ring

theorem size_zero : size 0 = 0 := by simp [size, significand, leadingBit]

/-! ## Signs -/

/-- The value that a place among all numbers stands for. -/
def sized (rank : Int) : ℚ := if rank < 0 then -size rank.natAbs else size rank.natAbs

theorem sized_strictMono : StrictMono sized := by
  intro a b hab
  have hpos {n : Nat} (hn : 0 < n) : 0 < size n := size_zero ▸ size_strictMono hn
  unfold sized
  -- below zero larger magnitudes are smaller values, and zero lies between the two halves
  by_cases ha : a < 0
  · rw [if_pos ha]
    by_cases hb : b < 0
    · rw [if_pos hb]
      exact neg_lt_neg (size_strictMono (by omega))
    · rw [if_neg hb]
      calc -size a.natAbs < 0 := neg_lt_zero.2 (hpos (by omega))
        _ = size 0 := size_zero.symm
        _ ≤ size b.natAbs := size_strictMono.monotone (Nat.zero_le _)
  · rw [if_neg ha, if_neg (by omega)]
    exact size_strictMono (by omega)

theorem sized_natCast (m : Nat) : sized m = size m := if_neg (by omega)

theorem sized_neg (m : Nat) : sized (-m) = -size m := by
  unfold sized
  split
  · rw [Int.natAbs_neg, Int.natAbs_natCast]
  · rw [show m = 0 by omega, size_zero, neg_zero]
    exact size_zero

/-- The value of a place, with the infinities on both ends. -/
def valueAt (rank : Int) : WithBot (WithTop ℚ) :=
  if rank = infinity then ⊤ else if rank = -infinity then ⊥ else (sized rank : WithTop ℚ)

theorem valueAt_strictMonoOn : StrictMonoOn valueAt (Set.Icc (-infinity) infinity) := by
  rintro a ⟨ha, -⟩ b ⟨-, hb⟩ hab
  unfold valueAt
  rw [if_neg (show a ≠ infinity by omega)]
  by_cases ha' : a = -infinity
  · rw [if_pos ha']
    split
    · exact bot_lt_top
    · rw [if_neg (by omega)]
      exact WithBot.bot_lt_coe _
  · rw [if_neg ha']
    split
    · exact WithBot.coe_lt_coe.2 (WithTop.coe_lt_top _)
    · rw [if_neg (by omega)]
      exact WithBot.coe_lt_coe.2 (WithTop.coe_lt_coe.2 (sized_strictMono hab))

variable {x y : Binary64}

theorem rank_mem (h : x.isNaN = false) : x.rank ∈ Set.Icc (-infinity : Int) infinity := by
  have hm : x.magnitude ≤ infinity := by simpa [isNaN] using h
  unfold rank
  split <;> constructor <;> omega

theorem value_eq (x : Binary64) : x.value = valueAt x.rank := by
  have hinf : 0 < infinity := by decide
  unfold value valueAt rank
  by_cases hm : x.magnitude = infinity
  · rw [if_pos hm, hm]
    cases x.isNegative
    · exact (if_pos rfl).symm
    · exact ((if_neg (by simp only [if_true]; omega)).trans (if_pos rfl)).symm
  · rw [if_neg hm]
    cases x.isNegative
    all_goals simp only [if_true, Bool.false_eq_true, if_false]
    all_goals rw [if_neg (by omega), if_neg (by omega)]
    · rw [sized_natCast]
    · rw [sized_neg]

/-- Numbers are compared by their values. -/
theorem compares_value (hx : x.isNaN = false) (hy : y.isNaN = false) :
    (x.compare y).Compares x.value y.value := by
  rw [value_eq, value_eq, valueAt_strictMonoOn.compares (rank_mem hx) (rank_mem hy), compare, hx,
    hy]
  exact (compare_iff x.rank y.rank).1 rfl

theorem compare_of_zero (hx : x.magnitude = 0) (hy : y.magnitude = 0) : x.compare y = .eq := by
  have hrank {z : Binary64} (hz : z.magnitude = 0) : z.isNaN = false ∧ z.rank = 0 := by
    simp [isNaN, rank, hz]
  rw [compare, (hrank hx).1, (hrank hy).1, (hrank hx).2, (hrank hy).2]
  rfl

end LiveTable.Binary64
