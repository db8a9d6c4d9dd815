import LiveTable.Proofs.Binary64
import LiveTable.Proofs.Column.Order

/-!
# The order of rows is a total preorder

If the collation is a total preorder of byte strings, then so is the order of rows on the sort keys
that follow one schema, and so is the order that leaves directions aside on the sort keys whose
kinds agree: it is the order of rows with every column read upwards (`compareUpward_eq_raised`), so
that directions do not enter into it at all. Numbers are in the order of their values.
-/

namespace LiveTable

/-- Among the elements of a set a comparison is a total preorder: an element is equal to itself,
swapping the sides turns the answer round, and both `≤` and equality are transitive. -/
structure PreorderOn {α : Type} (s : α → Prop) (cmp : α → α → Ordering) : Prop where
  refl {a : α} : s a → cmp a a = .eq
  swap {a b : α} : s a → s b → cmp b a = (cmp a b).swap
  le_trans {a b c : α} : s a → s b → s c → cmp a b ≠ .gt → cmp b c ≠ .gt → cmp a c ≠ .gt
  eq_trans {a b c : α} : s a → s b → s c → cmp a b = .eq → cmp b c = .eq → cmp a c = .eq

theorem PreorderOn.of_transCmp {α : Type} {s : α → Prop} {cmp lawful : α → α → Ordering}
    [Std.TransCmp lawful] (h : ∀ {a b}, s a → s b → cmp a b = lawful a b) : PreorderOn s cmp where
  refl ha := by
    rw [h ha ha]
    exact Std.ReflCmp.compare_self
  swap ha hb := by
    rw [h hb ha, h ha hb]
    exact Std.OrientedCmp.eq_swap
  le_trans ha hb hc hab hbc := by
    rw [h ha hb] at hab
    rw [h hb hc] at hbc
    rw [h ha hc]
    simp only [ne_eq, ← Ordering.isLE_iff_ne_gt] at hab hbc ⊢
    exact Std.TransCmp.isLE_trans hab hbc
  eq_trans ha hb hc hab hbc := by
    rw [h ha hb] at hab
    rw [h hb hc] at hbc
    rw [h ha hc]
    exact Std.TransCmp.eq_trans hab hbc

theorem PreorderOn.comap {α β : Type} {s : α → Prop} {s' : β → Prop} {cmp : α → α → Ordering}
    (h : PreorderOn s cmp) {f : β → α} (hf : ∀ {b}, s' b → s (f b)) :
    PreorderOn s' fun a b => cmp (f a) (f b) where
  refl ha := h.refl (hf ha)
  swap ha hb := h.swap (hf ha) (hf hb)
  le_trans ha hb hc := h.le_trans (hf ha) (hf hb) (hf hc)
  eq_trans ha hb hc := h.eq_trans (hf ha) (hf hb) (hf hc)

/-! ## Directions -/

def Column.raised (c : Column) : Column := { c with descending := false }

/-- The sort key has columns of the given kinds, any number of them. -/
def SortKey.HasKinds (kinds : Nat → Column.Kind) (k : SortKey) : Prop :=
  ∀ i c, k[i]? = some c → c.kind = kinds i

/-- Directions aside the two sort keys are the same. -/
def SortKey.SameContents (a b : SortKey) : Prop := a.map Column.raised = b.map Column.raised

theorem SortKey.compareUpward_eq_raised (collation : Collation) (a b : SortKey) :
    compareUpward collation a b =
      compare collation (a.map Column.raised) (b.map Column.raised) := by
  induction a generalizing b with
  | nil => cases b <;> rfl
  | cons c cs ih =>
    cases b with
    | nil => rfl
    | cons d ds => exact congrArg (Ordering.then _) (ih ds)

theorem SortKey.HasKinds.follows {kinds : Nat → Column.Kind} {k : SortKey} (h : k.HasKinds kinds) :
    SortKey.Follows (k.map Column.raised) fun i => (kinds i, false) := by
  intro i c hc
  rw [List.getElem?_map, Option.map_eq_some_iff] at hc
  obtain ⟨d, hd, rfl⟩ := hc
  exact congrArg (·, false) (h i d hd)

/-! ## Floating-point columns -/

/-- A comparison of two floating-point columns that leaves directions aside. -/
structure FloatOrder (cmp : Column → Column → Ordering) : Prop where
  /-- Numbers are in the order of their values. -/
  numbers {a b : Column} {x y : Binary64} : a.float? = some x → b.float? = some y →
    x.isNaN = false → y.isNaN = false → (cmp a b).Compares x.value y.value
  /-- Both zeros are the same number. -/
  zeros {a b : Column} {x y : Binary64} : a.float? = some x → b.float? = some y →
    x.magnitude = 0 → y.magnitude = 0 → cmp a b = .eq
  /-- NaNs are equal to each other. -/
  nans {a b : Column} {x y : Binary64} : a.float? = some x → b.float? = some y →
    x.isNaN = true → y.isNaN = true → cmp a b = .eq
  /-- A NaN is above every number. -/
  above {a b : Column} {x y : Binary64} : a.float? = some x → b.float? = some y →
    x.isNaN = true → y.isNaN = false → cmp a b = .gt ∧ cmp b a = .lt
  /-- Where one of the columns is of the wrong width only the widths count. -/
  malformed {a b : Column} : a.kind = .float → b.kind = .float →
    a.float? = none ∨ b.float? = none → cmp a b = Ord.compare a.bytes.length b.bytes.length

namespace Column

variable {a b : Column} {x y : Binary64}

theorem float?_eq_some (h : a.float? = some x) :
    a.kind = .float ∧ Binary64.ofBytes? a.bytes = some x ∧ a.bytes.length = 8 := by
  unfold float? at h
  split at h
  · rename_i hk
    refine ⟨hk, h, ?_⟩
    unfold Binary64.ofBytes? at h
    split at h
    · assumption
    · cases h
  · cases h

theorem compareUpward_of_float? (collation : Collation) (ha : a.float? = some x)
    (hb : b.float? = some y) : a.compareUpward collation b = x.compare y := by
  obtain ⟨hk, hx, hla⟩ := float?_eq_some ha
  obtain ⟨-, hy, hlb⟩ := float?_eq_some hb
  have hl : Ord.compare a.bytes.length b.bytes.length = .eq :=
    Nat.compare_eq_eq.2 (hla.trans hlb.symm)
  rw [compareUpward, hl, Ordering.then_eq]
  simp only [compareContent, hk, hx, hy]

theorem compareUpward_malformed (collation : Collation) (ha : a.kind = .float)
    (hb : b.kind = .float) (h : a.float? = none ∨ b.float? = none) :
    a.compareUpward collation b = Ord.compare a.bytes.length b.bytes.length := by
  simp only [float?, ha, hb] at h
  have hc : a.compareContent collation b = .eq := by
    simp only [compareContent, ha]
    rcases h with h | h
    · rw [h]
    · rw [h]
      cases Binary64.ofBytes? a.bytes <;> rfl
  rw [compareUpward, hc]
  rfl

theorem floatOrder_compareUpward (collation : Collation) :
    FloatOrder fun a b => SortKey.compareUpward collation [a] [b] := by
  have hone (a b : Column) :
      SortKey.compareUpward collation [a] [b] = a.compareUpward collation b := Ordering.then_eq
  simp only [hone]
  constructor
  case numbers =>
    intro a b x y ha hb hx hy
    rw [compareUpward_of_float? collation ha hb]
    exact Binary64.compares_value hx hy
  case zeros =>
    intro a b x y ha hb hx hy
    rw [compareUpward_of_float? collation ha hb]
    exact Binary64.compare_of_zero hx hy
  case nans =>
    intro a b x y ha hb hx hy
    rw [compareUpward_of_float? collation ha hb, Binary64.compare, hx, hy]
  case above =>
    intro a b x y ha hb hx hy
    rw [compareUpward_of_float? collation ha hb, compareUpward_of_float? collation hb ha,
      Binary64.compare, Binary64.compare, hx, hy]
    exact ⟨rfl, rfl⟩
  case malformed => exact compareUpward_malformed collation

end Column

/-- Under a collation that is a total preorder so is the order of rows, on the sort keys of any
schema, and so is the order of rows with directions left aside, on the sort keys of any kinds. -/
theorem preorderOn_of_collation {collation : Collation} (h : IsPreorder collation) :
    (∀ σ : Schema, PreorderOn (·.Follows σ) (SortKey.compare collation)) ∧
    (∀ kinds : Nat → Column.Kind,
      PreorderOn (·.HasKinds kinds) (SortKey.compareUpward collation)) ∧
    (∀ {a b a' b' : SortKey}, a.SameContents a' → b.SameContents b' →
      SortKey.compareUpward collation a b = SortKey.compareUpward collation a' b') ∧
    FloatOrder (fun a b => SortKey.compareUpward collation [a] [b]) := by
  have hschema (σ : Schema) : PreorderOn (·.Follows σ) (SortKey.compare collation) := by
    have := Schema.transCmp_compare h σ
    exact .of_transCmp fun ha _ => Schema.compare_eq h ha
  refine ⟨hschema, fun kinds => ?_, fun ha hb => ?_, Column.floatOrder_compareUpward collation⟩
  · rw [funext₂ (SortKey.compareUpward_eq_raised collation)]
    exact (hschema fun i => (kinds i, false)).comap SortKey.HasKinds.follows
  · rw [SortKey.compareUpward_eq_raised, SortKey.compareUpward_eq_raised, ha, hb]

/-- Downwards a wide column comes before a NaN, and a NaN before a number. -/
theorem preorderOn_of_collation_bytewise :
    let σ : Schema := fun i => if i = 0 then (.float, true) else (.text, false)
    let wide : SortKey := [⟨.float, true, [0, 0, 0, 0, 0, 0, 0, 0, 0]⟩]
    let nan : SortKey := [(Column.float ⟨0x7ff8000000000000⟩).down, Column.collated [1]]
    let one : SortKey := [(Column.float ⟨0x3ff0000000000000⟩).down]
    IsPreorder Collation.bytewise ∧ wide.Follows σ ∧ nan.Follows σ ∧ one.Follows σ ∧
      SortKey.compare .bytewise wide nan ≠ .gt ∧ SortKey.compare .bytewise nan one ≠ .gt ∧
      SortKey.compare .bytewise wide one ≠ .gt := by
  intro σ wide nan one
  have hwide : wide.Follows σ := Schema.follows_cons.2 ⟨rfl, Schema.follows_nil _⟩
  have hnan : nan.Follows σ :=
    Schema.follows_cons.2 ⟨rfl, Schema.follows_cons.2 ⟨rfl, Schema.follows_nil _⟩⟩
  have hone : one.Follows σ := Schema.follows_cons.2 ⟨rfl, Schema.follows_nil _⟩
  have h1 : SortKey.compare .bytewise wide nan ≠ .gt := by decide
  have h2 : SortKey.compare .bytewise nan one ≠ .gt := by decide
  have hpre := (preorderOn_of_collation Collation.isPreorder_bytewise).1 σ
  exact ⟨Collation.isPreorder_bytewise, hwide, hnan, hone, h1, h2,
    hpre.le_trans hwide hnan hone h1 h2⟩

end LiveTable
