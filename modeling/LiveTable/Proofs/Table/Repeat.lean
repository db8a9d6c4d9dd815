import LiveTable.Proofs.Table.Reachable
import Mathlib

/-!
# Putting a row twice

A `put` that succeeds leaves a row under its key whose sort key is alike the one that was put:
the very sort key where the row is new or was brought to its place, or an older one that it was
taken to be equal to (`Sound.alike_put`). The same `put` therefore finds nothing to change
the next time, whatever becomes of the visibility it asks for, and it finds the row behind the same
neighbour (`perform_put_again`). Of the collation nothing is needed but that it takes no value to
differ from itself.
-/

namespace LiveTable

section

variable {collation : Collation} (h : ∀ b, collation b b = .eq)

include h

theorem Column.compareContent_self (c : Column) : c.compareContent collation c = .eq := by
  unfold compareContent
  cases c.kind with
  | binary => exact Std.ReflCmp.compare_self
  | text => exact h c.bytes
  | float =>
    cases Binary64.ofBytes? c.bytes with
    | none => rfl
    | some x => exact x.compare_self

theorem Column.compare_self (c : Column) : c.compare collation c = .eq := by
  have hup : c.compareUpward collation c = .eq := by
    rw [compareUpward, compareContent_self h, Nat.compare_eq_eq.2 rfl]
    rfl
  rw [compare, hup]
  split <;> rfl

theorem SortKey.compare_self (a : SortKey) : SortKey.compare collation a a = .eq :=
  lexicographic_self a fun c _ => c.compare_self h

end

namespace Table

variable {t t' : Table} {key : Key} {columns : SortKey} {hidden : Bool} {p : Placement}
  {xs ys : List Entry} {e : Entry}

theorem alike_self (hc : ∀ b, t.collation b b = .eq) (a : SortKey) : t.alike a a = true := by
  simp [alike, compare, SortKey.compare_self hc a]

theorem Sound.alike_put (h : t.Sound) (hc : ∀ b, t.collation b b = .eq)
    (hp : t.put key columns hidden = .ok (p, t')) (he : e ∈ t'.entries) (hk : e.key = key) :
    t'.alike e.columns columns = true := by
  have hd := (h.of_put hp).distinct
  rcases t.put_cases key columns hidden with ⟨-, hput⟩ | ⟨-, -, hput⟩ | ⟨f, -, hf, ha, hput⟩ |
    ⟨f, -, -, -, hput⟩
  all_goals
    rw [hput] at hp
    cases hp
  · have hnew : t.newEntry key columns hidden ∈ (t.attach key columns hidden).2.entries :=
      (mem_attach ..).2 (.inl rfl)
    rw [hd.eq_of_key he hnew hk]
    exact alike_self hc columns
  · obtain ⟨hs, hfk⟩ := h.splits_of_focus? hf
    rw [hd.eq_of_key he (mem_of_splits hs) (hk.trans hfk.symm)]
    exact ha
  · have hnew : t.newEntry key columns hidden ∈ (t.resort f key columns hidden).entries := by
      rw [entries_resort]
      exact mem_middle.2 (.inl rfl)
    rw [hd.eq_of_key he hnew hk]
    exact alike_self hc columns

/-- A `put` that finds its row alike answers with the row before it and is only counted. -/
theorem Sound.put_of_alike (h : t.Sound) (he : t.entries = xs ++ e :: ys)
    (hk : e.key ≠ .reserved) (ha : t.alike e.columns columns = true) (hidden : Bool) :
    t.put e.key columns hidden =
      .ok (⟨.modified, xs.getLast?.map (·.key)⟩, t.note .unchanged) := by
  obtain ⟨f, hf, hs⟩ := h.focus? he
  rw [put, if_neg hk, hf]
  simp only [hs.entry, ha, if_true, f.step_left_key, hs.before]

/-- The same `put` once more names the same neighbour and changes nothing but the tally, also if it
asks for another visibility. -/
theorem perform_put_again (h : t.Reachable) (hc : ∀ b, t.collation b b = .eq)
    (hk : key ≠ .reserved) (columns : SortKey) (hidden again : Bool) :
    ∃ outcome predecessor t',
      t.perform (.put key columns hidden) = (.ok (.placed ⟨outcome, predecessor⟩), t') ∧
        t'.perform (.put key columns again) =
          (.ok (.placed ⟨.modified, predecessor⟩), t'.note .unchanged) := by
  obtain ⟨⟨outcome, predecessor⟩, t', hp⟩ := t.put_total hk columns hidden
  obtain ⟨xs, e, ys, he, rfl, hbefore, -⟩ := h.sound.put_predecessor hp
  have ha := h.sound.alike_put hc hp (he ▸ mem_middle.2 (.inl rfl)) rfl
  have hput := (h.sound.of_put hp).put_of_alike he hk ha again
  rw [← hbefore] at hput
  exact ⟨outcome, predecessor, t', perform_of_ok (congrArg (Except.map _) hp),
    perform_of_ok (congrArg (Except.map _) hput)⟩

/-- A hidden row, and one with a floating-point column that is too short for a number. -/
def shortFloat : Table :=
  (empty {} .caseless).run [.put ⟨1, 1⟩ [Column.collated [0x61]] true,
    .put ⟨1, 2⟩ [⟨.float, false, [1, 2, 3]⟩, Column.collated [0x42]] false]

/-- The first `put` is taken to be equal to what is there, which stays, and so is the second. -/
theorem perform_put_again_shortFloat :
    shortFloat.Reachable ∧ (∀ b, shortFloat.collation b b = .eq) ∧ (⟨1, 2⟩ : Key) ≠ .reserved ∧
      (shortFloat.perform
          (.put ⟨1, 2⟩ [⟨.float, false, [9, 9, 9]⟩, Column.collated [0x62]] true)).2.entries =
        [⟨⟨⟨1, 1⟩, [Column.collated [0x61]], 0⟩, true⟩,
          ⟨⟨⟨1, 2⟩, [⟨.float, false, [1, 2, 3]⟩, Column.collated [0x42]], 1⟩, false⟩] ∧
      shortFloat.replies
          [.put ⟨1, 2⟩ [⟨.float, false, [9, 9, 9]⟩, Column.collated [0x62]] true,
            .put ⟨1, 2⟩ [⟨.float, false, [9, 9, 9]⟩, Column.collated [0x62]] false] =
        [.ok (.placed ⟨.modified, some ⟨1, 1⟩⟩), .ok (.placed ⟨.modified, some ⟨1, 1⟩⟩)] := by
  have hreachable : shortFloat.Reachable := ⟨{}, .caseless, _, rfl, rfl⟩
  have hc : ∀ b, shortFloat.collation b b = .eq := by
    rw [show shortFloat.collation = .caseless by cbv]
    exact fun b => (Std.ReflCmp.compare_self : Ord.compare (b.map Collation.lower) _ = .eq)
  have hk : (⟨1, 2⟩ : Key) ≠ .reserved := by decide
  obtain ⟨outcome, predecessor, t', hfirst, hagain⟩ := perform_put_again hreachable hc hk
    [⟨.float, false, [9, 9, 9]⟩, Column.collated [0x62]] true false
  have hreply : (shortFloat.perform
      (.put ⟨1, 2⟩ [⟨.float, false, [9, 9, 9]⟩, Column.collated [0x62]] true)).1 =
        .ok (.placed ⟨.modified, some ⟨1, 1⟩⟩) := by cbv
  refine ⟨hreachable, hc, hk, by cbv, ?_⟩
  rw [hfirst] at hreply
  cases hreply
  simp only [replies, hfirst, hagain]

end Table

end LiveTable
