import LiveTable.Tally
import Mathlib

/-!
# Counters

Every event adds to one counter. A tally that is enabled shows what events have added to it, modulo
the width of its counters (`Tally.value_noteAll`), and as long as they have not come round it shows
the exact amounts (`Tally.toNat_value_noteAll`).
-/

namespace LiveTable.Tally

inductive Counter where
  | added
  | modified
  | unchanged
  | deleted
  | rotations
  | seeks
  | hidden
  | unhidden
  | bookmarks
  deriving DecidableEq

def value (t : Tally) : Counter → UInt64
  | .added => t.added
  | .modified => t.modified
  | .unchanged => t.unchanged
  | .deleted => t.deleted
  | .rotations => t.rotations
  | .seeks => t.seeks
  | .hidden => t.hidden
  | .unhidden => t.unhidden
  | .bookmarks => t.bookmarks

/-- What an event adds to a counter. -/
def Event.amount : Event → Counter → Nat
  | .added, .added => 1
  | .modified, .modified => 1
  | .unchanged, .unchanged => 1
  | .deleted, .deleted => 1
  | .rotated n, .rotations => n
  | .sought, .seeks => 1
  | .hidden n, .hidden => n
  | .unhidden n, .unhidden => n
  | .bookmarked, .bookmarks => 1
  | _, _ => 0

/-- What some events add to a counter. -/
def amounts (events : List Event) (k : Counter) : Nat := (events.map (·.amount k)).sum

def noteAll (t : Tally) (events : List Event) : Tally := events.foldl note t

@[simp] theorem amounts_nil (k : Counter) : amounts [] k = 0 := rfl

@[simp] theorem amounts_cons (e : Event) (rest : List Event) (k : Counter) :
    amounts (e :: rest) k = e.amount k + amounts rest k := rfl

theorem amounts_append (xs ys : List Event) (k : Counter) :
    amounts (xs ++ ys) k = amounts xs k + amounts ys k := by
  rw [amounts, List.map_append, List.sum_append, amounts, amounts]

theorem noteAll_append (t : Tally) (xs ys : List Event) :
    t.noteAll (xs ++ ys) = (t.noteAll xs).noteAll ys := List.foldl_append

theorem value_zero (enabled : Bool) (k : Counter) : (zero enabled).value k = 0 := by
  cases k <;> rfl

theorem value_count (t : Tally) (e : Event) (k : Counter) :
    (t.count e).value k = t.value k + UInt64.ofNat (e.amount k) := by
  cases e <;> cases k <;> simp [count, value, Event.amount]

variable {t : Tally}

/-- There is nothing to a tally but its counters and whether it is enabled. -/
theorem eq_of_value {u : Tally} (he : t.enabled = u.enabled) (hv : ∀ k, t.value k = u.value k) :
    t = u := by
  cases t
  cases u
  simp only [mk.injEq]
  exact ⟨he, hv .added, hv .modified, hv .unchanged, hv .deleted, hv .rotations, hv .seeks,
    hv .hidden, hv .unhidden, hv .bookmarks⟩

theorem note_comm (t : Tally) (a b : Event) : (t.note a).note b = (t.note b).note a := by
  by_cases h : t.enabled = true
  · have hnote (e e' : Event) : (t.note e).note e' = (t.count e).count e' := by
      rw [note, enabled_note, if_pos h, note, if_pos h]
    refine eq_of_value (by simp) fun k => ?_
    rw [hnote, hnote]
    simp only [value_count]
    exact add_right_comm _ _ _
  · simp only [note_of_not_enabled (Bool.eq_false_iff.2 h)]

theorem value_noteAll (h : t.enabled = true) (events : List Event) (k : Counter) :
    (t.noteAll events).value k = t.value k + UInt64.ofNat (amounts events k) := by
  induction events generalizing t with
  | nil => simp [noteAll]
  | cons e rest ih =>
    have hnote : t.note e = t.count e := if_pos h
    rw [noteAll, List.foldl_cons, ← noteAll, ih ((enabled_note t e).trans h), hnote, value_count,
      amounts_cons, UInt64.ofNat_add, UInt64.add_assoc]

theorem toNat_value_noteAll {events : List Event} {k : Counter} (h : amounts events k < 2 ^ 64) :
    (((zero true).noteAll events).value k).toNat = amounts events k := by
  rw [value_noteAll rfl, value_zero, UInt64.zero_add, UInt64.toNat_ofNat_of_lt' h]

end LiveTable.Tally
