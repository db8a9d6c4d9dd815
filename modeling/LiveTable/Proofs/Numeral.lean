import LiveTable.Bytes
import Mathlib.Algebra.Group.Nat.Defs

/-!
# Numerals of one width

Numbers below a power of the base are in the order of their numerals, read from the most significant
digit on, as long as all numerals have the same number of digits (`compare_numeral`). The digits may
be written as anything that is in their order, such as bytes (`Bytes.compare_bigEndian`).
-/

namespace LiveTable

/-- The low `width` digits of a number, most significant first. -/
def numeral (base : Nat) : Nat → Nat → List Nat
  | 0, _ => []
  | width + 1, n => numeral base width (n / base) ++ [n % base]

/-! ## Comparing lists -/

section

variable {α β : Type} [Ord α] [Ord β]

/-- Where two lists have fronts of the same length, these decide unless they are equal. -/
theorem compare_append {as bs : List α} (h : as.length = bs.length) (xs ys : List α) :
    compare (as ++ xs) (bs ++ ys) = (compare as bs).then (compare xs ys) := by
  induction as generalizing bs with
  | nil =>
    obtain rfl := List.length_eq_zero_iff.1 h.symm
    rfl
  | cons a as ih =>
    cases bs with
    | nil => cases h
    | cons b bs =>
      rw [List.cons_append, List.cons_append, List.compare_cons_cons, List.compare_cons_cons,
        ih (Nat.succ.inj h), Ordering.then_assoc]

theorem compare_map {f : α → β} {as bs : List α}
    (h : ∀ a ∈ as, ∀ b ∈ bs, compare (f a) (f b) = compare a b) :
    compare (as.map f) (bs.map f) = compare as bs := by
  induction as generalizing bs with
  | nil => cases bs <;> rfl
  | cons a as ih =>
    cases bs with
    | nil => rfl
    | cons b bs =>
      rw [List.map_cons, List.map_cons, List.compare_cons_cons, List.compare_cons_cons,
        h a List.mem_cons_self b List.mem_cons_self,
        ih fun x hx y hy => h x (List.mem_cons_of_mem a hx) y (List.mem_cons_of_mem b hy)]

end

/-! ## Comparing numerals -/

variable {base width m n : Nat}

theorem length_numeral (base width n : Nat) : (numeral base width n).length = width := by
  induction width generalizing n with
  | zero => rfl
  | succ w ih => rw [numeral, List.length_append, ih, List.length_singleton]

theorem lt_of_mem_numeral (hb : 0 < base) {d : Nat} (hd : d ∈ numeral base width n) : d < base := by
  induction width generalizing n with
  | zero => cases hd
  | succ w ih =>
    rcases List.mem_append.1 hd with hd | hd
    · exact ih hd
    · rw [List.mem_singleton.1 hd]
      exact Nat.mod_lt n hb

theorem compare_div_mod (base m n : Nat) :
    compare m n = (compare (m / base) (n / base)).then (compare (m % base) (n % base)) := by
  have hm := Nat.div_add_mod m base
  have hn := Nat.div_add_mod n base
  rcases Nat.lt_trichotomy (m / base) (n / base) with hlt | heq | hgt
  · have hmn : m < n := Nat.lt_of_div_lt_div hlt
    rw [Nat.compare_eq_lt.2 hlt, Nat.compare_eq_lt.2 hmn]
    rfl
  · rw [heq] at hm ⊢
    rw [Nat.compare_eq_eq.2 rfl, Ordering.eq_then]
    rcases Nat.lt_trichotomy (m % base) (n % base) with hlt | heq | hgt
    · rw [Nat.compare_eq_lt.2 hlt, Nat.compare_eq_lt.2 (by omega)]
    · rw [heq, Nat.compare_eq_eq.2 rfl, Nat.compare_eq_eq.2 (by omega)]
    · rw [Nat.compare_eq_gt.2 hgt, Nat.compare_eq_gt.2 (by omega)]
  · have hmn : n < m := Nat.lt_of_div_lt_div hgt
    rw [Nat.compare_eq_gt.2 hgt, Nat.compare_eq_gt.2 hmn]
    rfl

theorem div_lt_pow (hn : n < base ^ (width + 1)) : n / base < base ^ width := by
  rw [pow_succ, mul_comm] at hn
  exact Nat.div_lt_of_lt_mul hn

theorem compare_numeral (hm : m < base ^ width) (hn : n < base ^ width) :
    compare (numeral base width m) (numeral base width n) = compare m n := by
  induction width generalizing m n with
  | zero =>
    obtain rfl : m = n := (Nat.lt_one_iff.1 hm).trans (Nat.lt_one_iff.1 hn).symm
    exact (Nat.compare_eq_eq.2 rfl).symm
  | succ w ih =>
    have hdigit : compare [m % base] [n % base] = compare (m % base) (n % base) := by
      rw [List.compare_cons_cons]
      exact Ordering.then_eq
    rw [numeral, numeral, compare_append (by rw [length_numeral, length_numeral]), hdigit,
      ih (div_lt_pow hm) (div_lt_pow hn), ← compare_div_mod]

/-- Numerals whose digits are written in some alphabet, in the order of the digits. -/
theorem compare_map_numeral {α : Type} [Ord α] {f : Nat → α} (hb : 0 < base)
    (hf : ∀ a < base, ∀ b < base, compare (f a) (f b) = compare a b) (hm : m < base ^ width)
    (hn : n < base ^ width) :
    compare ((numeral base width m).map f) ((numeral base width n).map f) = compare m n := by
  rw [compare_map fun a ha b hb' => hf a (lt_of_mem_numeral hb ha) b (lt_of_mem_numeral hb hb'),
    compare_numeral hm hn]

/-! ## Digits as text -/

theorem numeral_zero (base width : Nat) : numeral base width 0 = List.replicate width 0 := by
  induction width with
  | zero => rfl
  | succ w ih => rw [numeral, Nat.zero_div, Nat.zero_mod, ih, List.replicate_succ']

/-- A number in as many digits as it needs, filled up with zeros from the left. -/
theorem replicate_append_toDigits (hb : 1 < base) (hn : n < base ^ (width + 1)) :
    List.replicate (width + 1 - (Nat.toDigits base n).length) '0' ++ Nat.toDigits base n =
      (numeral base (width + 1) n).map Nat.digitChar := by
  have hdigit {w k : Nat} (hk : k < base) :
      List.replicate (w + 1 - (Nat.toDigits base k).length) '0' ++ Nat.toDigits base k =
        (numeral base (w + 1) k).map Nat.digitChar := by
    rw [Nat.toDigits_of_lt_base hk, numeral, Nat.div_eq_of_lt hk, Nat.mod_eq_of_lt hk, numeral_zero,
      List.map_append, List.map_replicate]
    rfl
  induction width generalizing n with
  | zero => exact hdigit (by rwa [Nat.zero_add, Nat.pow_one] at hn)
  | succ w ih =>
    rcases Nat.lt_or_ge n base with hlt | hge
    · exact hdigit hlt
    · have hlast : numeral base (w + 2) n = numeral base (w + 1) (n / base) ++ [n % base] := rfl
      rw [Nat.toDigits_of_base_le hb hge, List.length_append, List.length_singleton,
        Nat.add_sub_add_right, ← List.append_assoc, ih (div_lt_pow hn), hlast, List.map_append]
      rfl

/-! ## Bytes -/

namespace Bytes

theorem bigEndian_eq_numeral (width n : Nat) :
    bigEndian width n = (numeral 256 width n).map UInt8.ofNat := by
  induction width generalizing n with
  | zero => rfl
  | succ w ih =>
    rw [bigEndian, littleEndian, List.reverse_cons, ← bigEndian, ih, numeral, List.map_append,
      List.map_singleton, UInt8.ofNat_mod_size]

theorem compare_ofNat {a b : Nat} (ha : a < 256) (hb : b < 256) :
    compare (UInt8.ofNat a) (UInt8.ofNat b) = compare a b := by
  show compareOfLessAndEq (UInt8.ofNat a) (UInt8.ofNat b) = compareOfLessAndEq a b
  simp only [compareOfLessAndEq, UInt8.lt_iff_toNat_lt, ← UInt8.toNat_inj,
    UInt8.toNat_ofNat_of_lt' ha, UInt8.toNat_ofNat_of_lt' hb]

theorem compare_bigEndian {width m n : Nat} (hm : m < 256 ^ width) (hn : n < 256 ^ width) :
    compare (bigEndian width m) (bigEndian width n) = compare m n := by
  rw [bigEndian_eq_numeral, bigEndian_eq_numeral]
  exact compare_map_numeral (by decide) (fun _ ha _ hb => compare_ofNat ha hb) hm hn

end Bytes

end LiveTable
