import LiveTable.Proofs.Column.Preorder
import LiveTable.Proofs.Numeral

/-!
# Columns made of values

Unsigned numbers are written with their most significant byte first, signed numbers likewise after
their sign bit is flipped, and floating-point numbers as their patterns, least significant byte
first. Binary columns are compared byte by byte, so that columns made of whole numbers are in numeric
order. Floating-point columns are read back and compared as sign and magnitude. In the end, columns
made of values are in the order of the values, and in the reverse order if they sort downwards
(`encodesInOrder`).
-/

namespace LiveTable

/-! ## Strings of bytes -/

namespace Bytes

theorem compare_eq_lt_iff {a b : Bytes} : compare a b = .lt ↔ a < b := by
  induction a generalizing b with
  | nil =>
    cases b with
    | nil => exact iff_of_false nofun (List.not_lt_nil _)
    | cons y ys => exact iff_of_true rfl (List.nil_lt_cons y ys)
  | cons x xs ih =>
    cases b with
    | nil => exact iff_of_false nofun (List.not_lt_nil _)
    | cons y ys =>
      rw [List.compare_cons_cons, Ordering.then_eq_lt, List.cons_lt_cons_iff, ih,
        Std.compare_eq_lt, Std.LawfulEqCmp.compare_eq_iff_eq]

theorem compare_append_left (common a b : Bytes) :
    compare (common ++ a) (common ++ b) = compare a b := by
  have hself : compare common common = .eq := Std.ReflCmp.compare_self
  rw [compare_append rfl, hself, Ordering.eq_then]

theorem compare_eq_take (a b : Bytes) :
    compare a b = (compare (a.take (min a.length b.length)) (b.take (min a.length b.length))).then
      (compare a.length b.length) := by
  induction a generalizing b with
  | nil => cases b <;> simp [Nat.compare_eq_lt.2]
  | cons x xs ih =>
    cases b with
    | nil => simp [Nat.compare_eq_gt.2]
    | cons y ys =>
      have hlength : compare (xs.length + 1) (ys.length + 1) = compare xs.length ys.length := by
        simp only [Nat.compare_eq_ite_lt, Nat.add_lt_add_iff_right]
      rw [List.length_cons, List.length_cons, Nat.succ_min_succ, List.take_succ_cons,
        List.take_succ_cons, List.compare_cons_cons, List.compare_cons_cons, Ordering.then_assoc,
        hlength, ← ih]

theorem compare_then_length (a b : Bytes) :
    (compare a b).then (compare a.length b.length) = compare a b := by
  cases hab : compare a b with
  | lt => rfl
  | eq =>
    obtain rfl := Std.LawfulEqCmp.eq_of_compare hab
    exact Nat.compare_eq_eq.2 rfl
  | gt => rfl

end Bytes

/-! ## Signed numbers -/

theorem xor_two_pow {n k : Nat} (h : n < 2 ^ (k + 1)) :
    n ^^^ 2 ^ k = if n < 2 ^ k then n + 2 ^ k else n - 2 ^ k := by
  have hdiv : (n ^^^ 2 ^ k) / 2 ^ k = n / 2 ^ k ^^^ 1 := by
    rw [Nat.xor_div_two_pow, Nat.div_self (Nat.two_pow_pos k)]
  have hmod : (n ^^^ 2 ^ k) % 2 ^ k = n % 2 ^ k := by
    rw [Nat.xor_mod_two_pow, Nat.mod_self, Nat.xor_zero]
  rw [← Nat.div_add_mod (n ^^^ 2 ^ k) (2 ^ k), hdiv, hmod]
  split
  · rename_i hn
    rw [Nat.div_eq_of_lt hn, Nat.mod_eq_of_lt hn, Nat.zero_xor, Nat.mul_one, Nat.add_comm]
  · rename_i hn
    rw [Nat.pow_succ] at h
    rw [Nat.div_eq_of_lt_le (k := 1) (by omega) (by omega), Nat.xor_self, Nat.mul_zero, Nat.zero_add,
      Nat.mod_eq_sub_mod (by omega), Nat.mod_eq_of_lt (by omega)]

theorem toNat_flip (n : Int64) :
    ((n.toUInt64 ^^^ 0x8000000000000000).toNat : Int) = n.toInt + 2 ^ 63 := by
  have hbound : n.toUInt64.toNat < 2 ^ (63 + 1) := n.toUInt64.toNat_lt
  have hsigned : n.toInt = if 2 * n.toUInt64.toNat < 2 ^ 64 then (n.toUInt64.toNat : Int)
      else n.toUInt64.toNat - (2 ^ 64 : Nat) := BitVec.toInt_eq_toNat_cond n.toBitVec
  have hflip : (n.toUInt64 ^^^ 0x8000000000000000).toNat = n.toUInt64.toNat ^^^ 2 ^ 63 :=
    UInt64.toNat_xor ..
  rw [hflip, xor_two_pow hbound, hsigned]
  split <;> split <;> omega

theorem compare_toNat_flip (m n : Int64) :
    compare (m.toUInt64 ^^^ 0x8000000000000000).toNat (n.toUInt64 ^^^ 0x8000000000000000).toNat =
      compare m.toInt n.toInt := by
  have hm := toNat_flip m
  have hn := toNat_flip n
  rcases lt_trichotomy m.toInt n.toInt with hlt | heq | hgt
  · rw [compare_lt_iff_lt.2 hlt, compare_lt_iff_lt]
    omega
  · rw [compare_eq_iff_eq.2 heq, compare_eq_iff_eq]
    omega
  · rw [compare_gt_iff_gt.2 hgt, compare_gt_iff_gt]
    omega

/-! ## What the orders are -/

/-- Byte by byte, the first difference decides, and a proper prefix comes first. -/
structure Bytes.Lexicographic (order : Bytes → Bytes → Ordering) : Prop where
  lt_iff (a b : Bytes) : order a b = .lt ↔ a < b
  eq_iff (a b : Bytes) : order a b = .eq ↔ a = b
  gt_iff (a b : Bytes) : order a b = .gt ↔ b < a
  differing {x y : UInt8} (common a b : Bytes) : x < y →
    order (common ++ x :: a) (common ++ y :: b) = .lt
  proper_prefix (a : Bytes) (x : UInt8) (rest : Bytes) : order a (a ++ x :: rest) = .lt
  /-- As many bytes as both have are compared first, and then the lengths. -/
  cut (a b : Bytes) :
    let common := min a.length b.length
    order a b = (order (a.take common) (b.take common)).then (compare a.length b.length)

/-- The patterns that are numbers are in the order of sign and magnitude, which is that of their
values, and NaNs come after them. -/
structure Binary64.Numeric (order : Binary64 → Binary64 → Ordering) : Prop where
  ranks {x y : Binary64} : x.isNaN = false → y.isNaN = false →
    order x y = Ord.compare x.rank y.rank
  values {x y : Binary64} : x.isNaN = false → y.isNaN = false →
    (order x y).Compares x.value y.value
  zeros {x y : Binary64} : x.magnitude = 0 → y.magnitude = 0 → order x y = .eq
  nans {x y : Binary64} : x.isNaN = true → y.isNaN = true → order x y = .eq
  above {x y : Binary64} : x.isNaN = true → y.isNaN = false → order x y = .gt ∧ order y x = .lt

theorem Bytes.lexicographic_compare : Lexicographic compare where
  lt_iff _ _ := compare_eq_lt_iff
  eq_iff _ _ := Std.LawfulEqCmp.compare_eq_iff_eq
  gt_iff a b := by rw [← compare_eq_lt_iff, Std.OrientedCmp.gt_iff_lt]
  differing common a b h := by
    rw [compare_append_left, List.compare_cons_cons, Std.compare_eq_lt.2 h]
    rfl
  proper_prefix a x rest := by
    have hrest := compare_append_left a [] (x :: rest)
    rwa [List.append_nil] at hrest
  cut := compare_eq_take

theorem Binary64.numeric_compare : Numeric compare where
  ranks hx hy := by rw [compare, hx, hy]
  values := compares_value
  zeros := compare_of_zero
  nans hx hy := by rw [compare, hx, hy]
  above hx hy := by rw [compare, compare, hx, hy]; exact ⟨rfl, rfl⟩

/-! ## Columns -/

namespace Column

/-- Sort keys of one column made of a value are in the order of the values, and in the reverse order
if both sort downwards. -/
structure Keeps {α : Type} (collation : Collation) (encode : α → Column)
    (order : α → α → Ordering) : Prop where
  upward (x y : α) : SortKey.compare collation [encode x] [encode y] = order x y
  downward (x y : α) :
    SortKey.compare collation [(encode x).down] [(encode y).down] = (order x y).swap

variable {collation : Collation}

theorem Keeps.of_compareUpward {α : Type} {encode : α → Column} {order : α → α → Ordering}
    (hup : ∀ x, (encode x).descending = false)
    (h : ∀ x y, (encode x).compareUpward collation (encode y) = order x y) :
    Keeps collation encode order := by
  have hone (a b : Column) : SortKey.compare collation [a] [b] = a.compare collation b :=
    Ordering.then_eq
  refine ⟨fun x y => ?_, fun x y => ?_⟩
  · rw [hone, compare, hup, if_neg Bool.false_ne_true, h]
  · rw [hone, compare, ← h]
    rfl

theorem compareUpward_binary (collation : Collation) (a b : Bytes) :
    (binary a).compareUpward collation (binary b) = Ord.compare a b :=
  Bytes.compare_then_length a b

theorem compareUpward_unsigned (collation : Collation) (m n : UInt64) :
    (unsigned m).compareUpward collation (unsigned n) = Ord.compare m.toNat n.toNat := by
  rw [unsigned, unsigned, compareUpward_binary]
  exact Bytes.compare_bigEndian m.toNat_lt n.toNat_lt

/-- What there is to know about the order of columns made of values. -/
structure EncodesInOrder (collation : Collation) : Prop where
  unsigned : Keeps collation unsigned fun m n => Ord.compare m.toNat n.toNat
  signed : Keeps collation signed fun m n => Ord.compare m.toInt n.toInt
  float : Keeps collation float Binary64.compare
  binary : Keeps collation binary Ord.compare
  /-- The pattern is in the bytes, and is read back from them. -/
  float_bytes (x : Binary64) : (Column.float x).bytes = Bytes.littleEndian 8 x.bits.toNat ∧
    (Column.float x).float? = some x
  numeric : Binary64.Numeric Binary64.compare
  lexicographic : Bytes.Lexicographic Ord.compare

/-- Whatever the collation, columns made of whole numbers are in numeric order, those made of
floating-point numbers in the order of what is read back, and those made of bytes in lexicographic
order. -/
theorem encodesInOrder (collation : Collation) : EncodesInOrder collation where
  unsigned := .of_compareUpward (fun _ => rfl) (compareUpward_unsigned collation)
  signed := .of_compareUpward (fun _ => rfl) fun m n =>
    (compareUpward_unsigned collation _ _).trans (compare_toNat_flip m n)
  float := .of_compareUpward (fun _ => rfl) fun x y =>
    compareUpward_of_float? collation (float?_float x) (float?_float y)
  binary := .of_compareUpward (fun _ => rfl) (compareUpward_binary collation)
  float_bytes x := ⟨rfl, float?_float x⟩
  numeric := Binary64.numeric_compare
  lexicographic := Bytes.lexicographic_compare

-- as they are, the bytes of `-1` would come after those of `0`
example : SortKey.compare .bytewise [signed (-1)] [signed 0] = .lt := by decide

end Column

end LiveTable
