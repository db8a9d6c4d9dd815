import LiveTable.Proofs.Column.Order

/-!
# Sort keys by their first columns

Comparing the first `n` columns only is coarser than comparing all of them: where the first columns
differ they decide (`compare_of_comparePrefix_ne`), and where they are equal the longer sort key
comes later if there are no others (`compare_of_extends`). In an order, what lies between two sort
keys with equal first columns has the same first columns (`Schema.comparePrefix_between`), whatever
the directions of the columns. So the comparisons by ever more columns refine one another, up to the
order of rows (`SortKey.prefixesRefine`).
-/

namespace LiveTable

namespace SortKey

section

variable {cmp : Column → Column → Ordering} {a b : SortKey}

theorem lexicographic_of_take_ne {n : Nat}
    (h : lexicographic cmp (a.take n) (b.take n) ≠ .eq) :
    lexicographic cmp a b = lexicographic cmp (a.take n) (b.take n) := by
  induction n generalizing a b with
  | zero => exact absurd rfl h
  | succ n ih =>
    cases a with
    | nil => cases b <;> rfl
    | cons c cs =>
      cases b with
      | nil => rfl
      | cons d ds =>
        simp only [List.take_succ_cons, lexicographic] at h ⊢
        cases hc : cmp c d with
        | lt | gt => rfl
        | eq =>
          rw [hc] at h
          exact ih h

theorem length_eq_of_lexicographic (h : lexicographic cmp a b = .eq) : a.length = b.length := by
  induction a generalizing b with
  | nil =>
    cases b with
    | nil => rfl
    | cons d ds => cases h
  | cons c cs ih =>
    cases b with
    | nil => cases h
    | cons d ds => exact congrArg (· + 1) (ih (Ordering.then_eq_eq.1 h).2)

theorem lexicographic_of_take_eq (h : lexicographic cmp a (b.take a.length) = .eq)
    (hl : a.length < b.length) : lexicographic cmp a b = .lt := by
  induction a generalizing b with
  | nil =>
    cases b with
    | nil => cases hl
    | cons d ds => rfl
  | cons c cs ih =>
    cases b with
    | nil => cases h
    | cons d ds =>
      obtain ⟨hc, hcs⟩ := Ordering.then_eq_eq.1 h
      rw [lexicographic, hc]
      exact ih hcs (Nat.lt_of_succ_lt_succ hl)

end

section

variable {collation : Collation} {n : Nat} {a b : SortKey}

theorem compare_of_comparePrefix_ne (h : comparePrefix collation n a b ≠ .eq) :
    compare collation a b = comparePrefix collation n a b :=
  lexicographic_of_take_ne h

/-- The order of first columns is coarser than the order of all. -/
theorem comparePrefix_ne_gt (h : compare collation a b ≠ .gt) :
    comparePrefix collation n a b ≠ .gt := fun hgt =>
  h (by rw [compare_of_comparePrefix_ne (n := n) (by rw [hgt]; decide), hgt])

theorem length_eq_of_compare (h : compare collation a b = .eq) : a.length = b.length :=
  length_eq_of_lexicographic h

theorem length_le_of_comparePrefix (h : comparePrefix collation a.length a b = .eq) :
    a.length ≤ b.length := by
  have hl := length_eq_of_lexicographic h
  rw [List.take_length, List.length_take] at hl
  omega

theorem compare_of_extends (h : comparePrefix collation a.length a b = .eq)
    (hl : a.length < b.length) : compare collation a b = .lt := by
  rw [comparePrefix, List.take_length] at h
  exact lexicographic_of_take_eq h hl

theorem compare_of_comparePrefix (h : comparePrefix collation a.length a b = .eq)
    (hl : b.length ≤ a.length) : compare collation a b = .eq := by
  rwa [comparePrefix_of_length_le (Nat.le_refl _) hl] at h

theorem comparePrefix_of_compare (h : compare collation a b = .eq) :
    comparePrefix collation a.length a b = .eq := by
  rwa [comparePrefix_of_length_le (Nat.le_refl _) (Nat.le_of_eq (length_eq_of_compare h).symm)]

theorem Follows.take {σ : Schema} (h : a.Follows σ) (n : Nat) : SortKey.Follows (a.take n) σ := by
  intro i c hc
  rw [List.getElem?_take] at hc
  split at hc
  · exact h i c hc
  · cases hc

end

end SortKey

namespace Schema

variable {collation : Collation} {σ : Schema} {a b c : SortKey}

/-- What lies between two sort keys that begin alike begins like them. -/
theorem comparePrefix_between (h : IsPreorder collation) (n : Nat) (ha : a.Follows σ)
    (hb : b.Follows σ) (hab : SortKey.compare collation a b ≠ .gt)
    (hbc : SortKey.compare collation b c ≠ .gt)
    (hac : SortKey.comparePrefix collation n a c = .eq) :
    SortKey.comparePrefix collation n a b = .eq := by
  have := transCmp_compare h σ
  have hfirst {x : SortKey} (hx : x.Follows σ) (y : SortKey) :
      SortKey.comparePrefix collation n x y = compare collation σ (x.take n) (y.take n) :=
    compare_eq h (hx.take n)
  have hle := SortKey.comparePrefix_ne_gt (n := n) hab
  have hge := SortKey.comparePrefix_ne_gt (n := n) hbc
  rw [hfirst ha, ne_eq, ← Ordering.isLE_iff_ne_gt] at hle
  rw [hfirst hb, ne_eq, ← Ordering.isLE_iff_ne_gt] at hge
  rw [hfirst ha] at hac ⊢
  -- the first columns of `b` are at most those of `c`, which are those of `a`
  have hba : (compare collation σ (b.take n) (a.take n)).isLE :=
    Std.TransCmp.isLE_trans hge (by rw [Std.OrientedCmp.eq_comm.1 hac]; rfl)
  exact Std.OrientedCmp.isLE_antisymm hle hba

end Schema

/-! ## Refinement -/

namespace SortKey

variable {collation : Collation} {n m : Nat} {a b : SortKey}

theorem comparePrefix_of_comparePrefix_ne (hnm : n ≤ m)
    (h : comparePrefix collation n a b ≠ .eq) :
    comparePrefix collation m a b = comparePrefix collation n a b := by
  have htake (k : SortKey) : (k.take m).take n = k.take n := by
    rw [List.take_take, Nat.min_eq_left hnm]
  have hfirst : comparePrefix collation n (a.take m) (b.take m) = comparePrefix collation n a b := by
    simp only [comparePrefix, htake]
  rw [← hfirst] at h ⊢
  exact compare_of_comparePrefix_ne h

/-- The comparisons by first columns get finer with every column, up to the order of rows. -/
structure PrefixesRefine (collation : Collation) : Prop where
  /-- Where the first columns differ they decide, however many more are looked at. -/
  decided {n m : Nat} {a b : SortKey} : n ≤ m → comparePrefix collation n a b ≠ .eq →
    comparePrefix collation m a b = comparePrefix collation n a b ∧
      compare collation a b = comparePrefix collation n a b
  coarser {n m : Nat} {a b : SortKey} : n ≤ m → comparePrefix collation m a b = .eq →
    comparePrefix collation n a b = .eq
  whole {n : Nat} {a b : SortKey} : a.length ≤ n → b.length ≤ n →
    comparePrefix collation n a b = compare collation a b
  /-- In an order the sort keys that begin alike stand together, whether or not they have as many
  columns as are looked at. -/
  between {σ : Schema} {n : Nat} {x y z : SortKey} : IsPreorder collation → x.Follows σ →
    y.Follows σ → compare collation x y ≠ .gt → compare collation y z ≠ .gt →
      comparePrefix collation n x z = .eq → comparePrefix collation n x y = .eq

/-- Under every collation, for columns of any kinds and directions, longer prefixes tell more. -/
theorem prefixesRefine (collation : Collation) : PrefixesRefine collation where
  decided hnm h := ⟨comparePrefix_of_comparePrefix_ne hnm h, compare_of_comparePrefix_ne h⟩
  coarser hnm h := Decidable.byContradiction fun hne =>
    hne ((comparePrefix_of_comparePrefix_ne hnm hne).symm.trans h)
  whole := comparePrefix_of_length_le
  between h hx hy hxy hyz := Schema.comparePrefix_between h _ hx hy hxy hyz

/-- Between a header and the last of its members, which sort downwards, there are only members. -/
theorem prefixesRefine_category :
    let σ : Schema := fun i => (.text, i = 1)
    let header : SortKey := [Column.collated [7]]
    let member (b : UInt8) : SortKey := [Column.collated [7], (Column.collated [b]).down]
    header.Follows σ ∧ (member 9).Follows σ ∧ compare .bytewise header (member 9) = .lt ∧
      compare .bytewise (member 9) (member 2) = .lt ∧
      comparePrefix .bytewise 1 header (member 2) = .eq ∧
      comparePrefix .bytewise 1 header (member 9) = .eq ∧
      comparePrefix .bytewise 2 (member 9) (member 2) = .lt := by
  intro σ header member
  have hheader : header.Follows σ := Schema.follows_cons.2 ⟨rfl, Schema.follows_nil _⟩
  have hmember : (member 9).Follows σ :=
    Schema.follows_cons.2 ⟨rfl, Schema.follows_cons.2 ⟨rfl, Schema.follows_nil _⟩⟩
  have h1 : compare .bytewise header (member 9) = .lt := by decide
  have h2 : compare .bytewise (member 9) (member 2) = .lt := by decide
  have h3 : comparePrefix .bytewise 1 header (member 2) = .eq := by decide
  have hrefine := prefixesRefine .bytewise
  refine ⟨hheader, hmember, h1, h2, h3, ?_, ?_⟩
  · exact hrefine.between Collation.isPreorder_bytewise hheader hmember (by rw [h1]; decide)
      (by rw [h2]; decide) h3
  · exact (hrefine.whole (Nat.le_refl 2) (Nat.le_refl 2)).trans h2

end SortKey

end LiveTable
