import LiveTable.Column.Order

/-!
# Sort keys that follow a schema

A schema gives every position of a sort key a kind and a direction. Column by column the order of
sort keys is then one order of byte strings (`Kind.order`), and the whole is an order as soon as
the collation is one: `Schema.compare` compares any two sort keys as the schema says, is oriented
and transitive, and agrees with the order of rows on the sort keys that follow the schema
(`Schema.compare_eq`).
-/

namespace LiveTable

theorem IsPreorder.transCmp {α : Type} {cmp : α → α → Ordering} (h : IsPreorder cmp) :
    Std.TransCmp cmp where
  eq_swap {a b} := h.swap b a
  isLE_trans {a b c} := by
    simp only [Ordering.isLE_iff_ne_gt]
    exact h.trans

theorem isPreorder_of_transCmp {α : Type} (cmp : α → α → Ordering) [Std.TransCmp cmp] :
    IsPreorder cmp where
  swap a b := Std.OrientedCmp.eq_swap
  trans {a b c} := by
    simp only [ne_eq, ← Ordering.isLE_iff_ne_gt]
    exact Std.TransCmp.isLE_trans

theorem Collation.isPreorder_bytewise : IsPreorder Collation.bytewise :=
  isPreorder_of_transCmp (Ord.compare : Bytes → Bytes → Ordering)

/-! ## One kind of column -/

namespace Column

def floatClass (b : Bytes) : Nat :=
  match Binary64.ofBytes? b with
  | some x => if x.isNaN then 1 else 0
  | none => 0

def floatRank (b : Bytes) : Int :=
  match Binary64.ofBytes? b with
  | some x => if x.isNaN then 0 else x.rank
  | none => 0

/-- Columns of one kind that sort upwards, by their bytes. -/
def Kind.order (collation : Collation) : Kind → Bytes → Bytes → Ordering
  | .binary => compareLex Ord.compare (compareOn List.length)
  | .text => compareLex collation (compareOn List.length)
  | .float =>
    compareLex (compareOn List.length) (compareLex (compareOn floatClass) (compareOn floatRank))

theorem Kind.transCmp_order {collation : Collation} (h : IsPreorder collation) (k : Kind) :
    Std.TransCmp (k.order collation) := by
  have := h.transCmp
  cases k with
  | binary => exact inferInstanceAs (Std.TransCmp (compareLex _ _))
  | text => exact inferInstanceAs (Std.TransCmp (compareLex _ _))
  | float => exact inferInstanceAs (Std.TransCmp (compareLex _ _))

theorem float_compare_eq (x y : Binary64) :
    x.compare y = (Ord.compare (if x.isNaN then 1 else 0) (if y.isNaN then 1 else 0)).then
      (Ord.compare (if x.isNaN then 0 else x.rank) (if y.isNaN then 0 else y.rank)) := by
  cases hx : x.isNaN <;> cases hy : y.isNaN <;>
    simp [Binary64.compare, hx, hy, Nat.compare_eq_lt.2, Nat.compare_eq_gt.2]

/-- Of two floating-point columns only those of the same width are told apart by content. -/
theorem compareUpward_float (collation : Collation) {a b : Column} (h : a.kind = .float) :
    a.compareUpward collation b = Kind.float.order collation a.bytes b.bytes := by
  simp only [compareUpward, compareContent, h, Kind.order, compareLex, compareOn, floatClass,
    floatRank]
  by_cases hl : a.bytes.length = b.bytes.length
  · rw [hl, Nat.compare_eq_eq.2 rfl, Ordering.then_eq, Ordering.eq_then]
    have hw : (Binary64.ofBytes? a.bytes).isSome = (Binary64.ofBytes? b.bytes).isSome := by
      simp only [Binary64.ofBytes?, hl]
      split <;> rfl
    cases ha : Binary64.ofBytes? a.bytes <;> cases hb : Binary64.ofBytes? b.bytes
    all_goals simp only [ha, hb, Option.isSome_some, Option.isSome_none, reduceCtorEq] at hw
    · rfl
    · exact float_compare_eq _ _
  · have hw : Binary64.ofBytes? a.bytes = none ∨ Binary64.ofBytes? b.bytes = none := by
      simp only [Binary64.ofBytes?]
      by_cases ha : a.bytes.length = 8
      · exact .inr (if_neg fun hb => hl (ha.trans hb.symm))
      · exact .inl (if_neg ha)
    have hc : Ord.compare a.bytes.length b.bytes.length ≠ .eq := mt Nat.compare_eq_eq.1 hl
    have hthen (o : Ordering) :
        (Ord.compare a.bytes.length b.bytes.length).then o =
          Ord.compare a.bytes.length b.bytes.length := by
      cases hab : Ord.compare a.bytes.length b.bytes.length with
      | eq => exact absurd hab hc
      | lt => rfl
      | gt => rfl
    rw [hthen]
    rcases hw with hw | hw
    · rw [hw]
      rfl
    · rw [hw]
      cases Binary64.ofBytes? a.bytes <;> rfl

theorem compareUpward_eq (collation : Collation) (a b : Column) :
    a.compareUpward collation b = a.kind.order collation a.bytes b.bytes := by
  cases h : a.kind with
  | float => exact compareUpward_float collation h
  | binary => simp [compareUpward, compareContent, h, Kind.order, compareLex, compareOn]
  | text => simp [compareUpward, compareContent, h, Kind.order, compareLex, compareOn]

/-- Columns of one kind and one direction, by their bytes. -/
def orderUnder (collation : Collation) (rule : Kind × Bool) (a b : Column) : Ordering :=
  if rule.2 then rule.1.order collation b.bytes a.bytes else rule.1.order collation a.bytes b.bytes

theorem transCmp_orderUnder {collation : Collation} (h : IsPreorder collation)
    (rule : Kind × Bool) : Std.TransCmp (orderUnder collation rule) := by
  obtain ⟨kind, down⟩ := rule
  have hk := Kind.transCmp_order h kind
  refine { eq_swap := fun {a b} => ?_, isLE_trans := fun {a b c} hab hbc => ?_ }
  · cases down
    all_goals exact hk.eq_swap
  · cases down with
    | false => exact hk.isLE_trans hab hbc
    | true => exact hk.isLE_trans hbc hab

theorem compare_eq_orderUnder {collation : Collation} (h : IsPreorder collation) (a b : Column) :
    a.compare collation b = orderUnder collation (a.kind, a.descending) a b := by
  have := Kind.transCmp_order h a.kind
  rw [compare, orderUnder, compareUpward_eq, ← Std.OrientedCmp.eq_swap]

end Column

/-! ## Schemas -/

/-- A kind and a direction for every position of a sort key. -/
abbrev Schema := Nat → Column.Kind × Bool

/-- Every column of the sort key is as the schema has it; there may be any number of them. -/
def SortKey.Follows (k : SortKey) (σ : Schema) : Prop :=
  ∀ i c, k[i]? = some c → (c.kind, c.descending) = σ i

namespace Schema

def tail (σ : Schema) : Schema := fun i => σ (i + 1)

/-- Sort keys in lexicographic order, every column compared as the schema says. -/
def compare (collation : Collation) : Schema → SortKey → SortKey → Ordering
  | _, [], [] => .eq
  | _, [], _ :: _ => .lt
  | _, _ :: _, [] => .gt
  | σ, a :: as, b :: bs =>
    (Column.orderUnder collation (σ 0) a b).then (compare collation σ.tail as bs)

theorem follows_nil (σ : Schema) : SortKey.Follows [] σ := by
  intro i c h
  cases h

theorem follows_cons {σ : Schema} {c : Column} {rest : SortKey} :
    SortKey.Follows (c :: rest) σ ↔
      (c.kind, c.descending) = σ 0 ∧ SortKey.Follows rest σ.tail := by
  constructor
  · exact fun h => ⟨h 0 c rfl, fun i d hd => h (i + 1) d hd⟩
  · rintro ⟨h0, h⟩ i d hd
    cases i with
    | zero =>
      cases hd
      exact h0
    | succ i => exact h i d hd

theorem follows_set {σ : Schema} {k : SortKey} (h : k.Follows σ) {index : Nat} {column : Column}
    (hc : (column.kind, column.descending) = σ index) :
    SortKey.Follows (k.set index column) σ := by
  intro i c hi
  by_cases he : index = i
  · subst he
    rw [List.getElem?_set_self' ] at hi
    obtain ⟨_, -, rfl⟩ := Option.map_eq_some_iff.1 hi
    exact hc
  · rw [List.getElem?_set_ne he] at hi
    exact h i c hi

section

variable {collation : Collation} (h : IsPreorder collation)

include h

theorem compare_swap (σ : Schema) (a b : SortKey) :
    compare collation σ a b = (compare collation σ b a).swap := by
  induction a generalizing σ b with
  | nil => cases b <;> rfl
  | cons c cs ih =>
    cases b with
    | nil => rfl
    | cons d ds =>
      have := Column.transCmp_orderUnder h (σ 0)
      rw [compare, compare, Ordering.swap_then, ← ih, ← Std.OrientedCmp.eq_swap]

theorem compare_isLE_trans (σ : Schema) {a b c : SortKey} (hab : (compare collation σ a b).isLE)
    (hbc : (compare collation σ b c).isLE) : (compare collation σ a c).isLE := by
  induction a generalizing σ b c with
  | nil => cases c <;> rfl
  | cons x xs ih =>
    cases b with
    | nil => cases hab
    | cons y ys =>
      cases c with
      | nil => cases hbc
      | cons z zs =>
        have := Column.transCmp_orderUnder h (σ 0)
        simp only [compare, Ordering.isLE_then_iff_and] at hab hbc ⊢
        refine ⟨Std.TransCmp.isLE_trans hab.1 hbc.1, ?_⟩
        rcases hab.2 with hlt | hxy
        · exact .inl (Std.TransCmp.lt_of_lt_of_isLE hlt hbc.1)
        · rcases hbc.2 with hlt | hyz
          · exact .inl (Std.TransCmp.lt_of_isLE_of_lt hab.1 hlt)
          · exact .inr (ih σ.tail hxy hyz)

theorem transCmp_compare (σ : Schema) : Std.TransCmp (compare collation σ) where
  eq_swap := compare_swap h σ _ _
  isLE_trans := compare_isLE_trans h σ

/-- Sort keys that follow the schema compare as the schema says. -/
theorem compare_eq {σ : Schema} {a b : SortKey} (ha : a.Follows σ) :
    SortKey.compare collation a b = compare collation σ a b := by
  induction a generalizing σ b with
  | nil => cases b <;> rfl
  | cons c cs ih =>
    cases b with
    | nil => rfl
    | cons d ds =>
      obtain ⟨h0, hcs⟩ := follows_cons.1 ha
      have hr := ih (b := ds) hcs
      rw [SortKey.compare] at hr ⊢
      rw [SortKey.lexicographic, hr, Column.compare_eq_orderUnder h, h0, compare]

end

end Schema

end LiveTable
