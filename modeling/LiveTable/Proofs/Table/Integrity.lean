import LiveTable.Table.Integrity

/-!
# Neighbours out of order

What the integrity check can find where the rows are kept in a tree is a pair of neighbours out of
order, and it finds the first one (`verify_cases`).
-/

namespace LiveTable

/-- No row stands directly before one that it comes after. -/
def Ascending (compare : SortKey → SortKey → Ordering) (rows : List Entry) : Prop :=
  ∀ xs a b ys, rows = xs ++ a :: b :: ys → compare a.columns b.columns ≠ .gt

section

variable {compare : SortKey → SortKey → Ordering}

theorem ascending_of_length_le {rows : List Entry} (h : rows.length ≤ 1) :
    Ascending compare rows := by
  rintro xs a b ys rfl
  simp only [List.length_append, List.length_cons] at h
  omega

theorem ascending_cons {a b : Entry} {rest : List Entry} :
    Ascending compare (a :: b :: rest) ↔
      compare a.columns b.columns ≠ .gt ∧ Ascending compare (b :: rest) := by
  constructor
  · intro h
    exact ⟨h [] a b rest rfl, fun xs c d ys he => h (a :: xs) c d ys (congrArg (a :: ·) he)⟩
  · rintro ⟨hab, h⟩ xs c d ys he
    cases xs with
    | nil =>
      cases he
      exact hab
    | cons x xs => exact h xs c d ys (List.cons.inj he).2

/-- What is reported is the first pair of neighbours out of order, if there is one. -/
theorem misordered?_cases (compare : SortKey → SortKey → Ordering) (rows : List Entry) :
    (misordered? compare rows = none ∧ Ascending compare rows) ∨
    ∃ xs a b ys, rows = xs ++ a :: b :: ys ∧ misordered? compare rows = some (a.key, b.key) ∧
      Ascending compare (xs ++ [a]) ∧ compare a.columns b.columns = .gt := by
  fun_induction misordered? compare rows with
  | case1 a b rest hgt =>
    exact .inr ⟨[], a, b, rest, rfl, rfl, ascending_of_length_le (by simp),
      Ordering.isGT_iff_eq_gt.1 hgt⟩
  | case2 a b rest hle ih =>
    have hab : compare a.columns b.columns ≠ .gt := mt Ordering.isGT_iff_eq_gt.2 hle
    rcases ih with ⟨hn, ha⟩ | ⟨xs, c, d, ys, he, hs, ha, hgt⟩
    · exact .inl ⟨hn, ascending_cons.2 ⟨hab, ha⟩⟩
    · refine .inr ⟨a :: xs, c, d, ys, congrArg (a :: ·) he, hs, ?_, hgt⟩
      cases xs with
      | nil =>
        cases he
        exact ascending_cons.2 ⟨hab, ha⟩
      | cons x xs =>
        cases he
        exact ascending_cons.2 ⟨hab, ha⟩
  | case3 rows hrows =>
    refine .inl ⟨rfl, ascending_of_length_le ?_⟩
    rcases rows with _ | ⟨a, _ | ⟨b, rest⟩⟩
    · simp
    · simp
    · exact absurd rfl (hrows a b rest)

end

namespace Table

theorem verify_cases (t : Table) :
    (Ascending t.compare t.entries ∧ t.verify = .ok ()) ∨
    ∃ xs a b ys, t.entries = xs ++ a :: b :: ys ∧ Ascending t.compare (xs ++ [a]) ∧
      t.compare a.columns b.columns = .gt ∧
      t.verify = .error (.corrupted ("row " ++ a.key.text ++ " sorts after " ++ b.key.text)) := by
  rw [verify]
  rcases misordered?_cases t.compare t.entries with ⟨hn, ha⟩ | ⟨xs, a, b, ys, he, hs, ha, hgt⟩
  · rw [hn]
    exact .inl ⟨ha, rfl⟩
  · rw [hs]
    exact .inr ⟨xs, a, b, ys, he, ha, hgt, rfl⟩

end Table

end LiveTable
