import LiveTable.Tree.Focus

/-!
# Searches

A descent from the root goes left or right at every cell and ends in a gap
between two rows (`gap`); the rows on either side of the gap are found from its
crumbs. A row that is known to be in the tree is searched under its own sort key
and arrival (`search`), which leads straight to it as long as the sort keys are
ordered; where they are not, all rows are looked through (`first?`). `locate`
therefore finds every row that is there, in any order of the sort keys.
-/

namespace LiveTable

/-- How a row stands to one in the tree: by sort key, and by arrival where the sort keys are
equal. -/
def Row.standing (collation : Collation) (r : Row) (e : Entry) : Ordering :=
  (SortKey.compare collation r.columns e.columns).then (Ord.compare r.arrival e.arrival)

namespace Tree

/-- The crumbs above the gap that is reached by going to the left of the rows that satisfy
`goLeft` and to the right of all others. -/
def gap (goLeft : Entry → Bool) : Tree → List Crumb → List Crumb
  | nil, above => above
  | node l c r, above =>
    if goLeft c.toEntry then l.gap goLeft (⟨.left, c, r⟩ :: above)
    else r.gap goLeft (⟨.right, c, l⟩ :: above)

theorem plugAll_gap (goLeft : Entry → Bool) (t : Tree) (above : List Crumb) :
    plugAll (t.gap goLeft above) nil = plugAll above t := by
  induction t generalizing above with
  | nil => rfl
  | node l c r ihl ihr =>
    rw [gap]
    split
    · rw [ihl]; rfl
    · rw [ihr]; rfl

/-- The row where a descent steered by `cmp` comes to a stop. -/
def search (cmp : Entry → Ordering) : Tree → List Crumb → Option Focus
  | nil, _ => none
  | node l c r, above =>
    match cmp c.toEntry with
    | .lt => l.search cmp (⟨.left, c, r⟩ :: above)
    | .eq => some ⟨l, c, r, above⟩
    | .gt => r.search cmp (⟨.right, c, l⟩ :: above)

theorem plug_of_search {cmp : Entry → Ordering} {t : Tree} {above : List Crumb} {f : Focus}
    (h : t.search cmp above = some f) : f.plug = plugAll above t := by
  induction t generalizing above with
  | nil => cases h
  | node l c r ihl ihr =>
    simp only [search] at h
    split at h
    · exact ihl h
    · cases h; rfl
    · exact ihr h

def first? (p : Entry → Bool) : Tree → List Crumb → Option Focus
  | nil, _ => none
  | node l c r, above =>
    match l.first? p (⟨.left, c, r⟩ :: above) with
    | some f => some f
    | none =>
      if p c.toEntry then some ⟨l, c, r, above⟩ else r.first? p (⟨.right, c, l⟩ :: above)

theorem first?_some {p : Entry → Bool} {t : Tree} {above : List Crumb} {f : Focus}
    (h : t.first? p above = some f) : p f.entry = true ∧ f.plug = plugAll above t := by
  induction t generalizing above with
  | nil => cases h
  | node l c r ihl ihr =>
    simp only [first?] at h
    split at h
    · rename_i hl
      cases h
      exact ihl hl
    · split at h
      · rename_i hp
        cases h
        exact ⟨hp, rfl⟩
      · exact ihr h

theorem first?_eq_none_iff {p : Entry → Bool} {t : Tree} {above : List Crumb} :
    t.first? p above = none ↔ ∀ e ∈ t.toList, p e = false := by
  induction t generalizing above with
  | nil => simp [first?]
  | node l c r ihl ihr =>
    simp only [first?, toList_node, List.mem_append, List.mem_cons]
    constructor
    · intro h
      split at h
      · cases h
      · rename_i hl
        split at h
        · cases h
        · rename_i hp
          rintro e (he | rfl | he)
          · exact ihl.1 hl e he
          · simpa using hp
          · exact ihr.1 h e he
    · intro h
      rw [ihl.2 fun e he => h e (.inl he), ihr.2 fun e he => h e (.inr (.inr he))]
      simp [h c.toEntry (.inr (.inl rfl))]

/-- The row with the key of `r`. It is searched under the sort key and the arrival of `r`, and
among all rows if it is not found there. -/
def locate (collation : Collation) (t : Tree) (r : Row) : Option Focus :=
  match (t.search (r.standing collation) []).filter (·.key = r.key) with
  | some f => some f
  | none => t.first? (·.key = r.key) []

theorem locate_some {collation : Collation} {t : Tree} {r : Row} {f : Focus}
    (h : t.locate collation r = some f) : f.key = r.key ∧ f.plug = t := by
  unfold locate at h
  split at h
  · rename_i g hg
    cases h
    obtain ⟨hs, hk⟩ := Option.filter_eq_some_iff.1 hg
    exact ⟨by simpa using hk, plug_of_search hs⟩
  · obtain ⟨hk, hp⟩ := first?_some h
    exact ⟨of_decide_eq_true hk, hp⟩

theorem locate_eq_none_iff {collation : Collation} {t : Tree} {r : Row} :
    t.locate collation r = none ↔ ∀ e ∈ t.toList, e.key ≠ r.key := by
  constructor
  · intro h
    unfold locate at h
    split at h
    · cases h
    · simpa using first?_eq_none_iff.1 h
  · intro h
    cases hl : t.locate collation r with
    | none => rfl
    | some f =>
      obtain ⟨hk, hp⟩ := locate_some hl
      exact absurd hk (h f.entry (by rw [← hp, f.toList_plug]; simp))

end Tree

end LiveTable
