import LiveTable.Fault

/-!
# Settings

How many bookmarks a table may have at a time, the number of its first one, how
many rows to make room for, and whether it keeps a tally. Settings are valid if
at least one bookmark is allowed and no bookmark gets a reserved number.
-/

namespace LiveTable

structure Settings where
  bookmarkLimit : Nat := 100
  firstMark : UInt32 := Mark.firstFree
  initialCapacity : Nat := 0
  collectTally : Bool := true
  deriving DecidableEq, Inhabited

namespace Settings

def small : Settings := { bookmarkLimit := 8, initialCapacity := 64 }

def validate (s : Settings) : Except Fault Unit :=
  if s.bookmarkLimit = 0 then .error (.invalidSettings "bookmark_limit must be at least 1")
  else if s.firstMark < Mark.firstFree then
    .error (.invalidSettings
      ("first_bookmark_id must be at least " ++ Mark.firstFree.toNat.repr))
  else .ok ()

theorem validate_eq_ok_iff (s : Settings) :
    s.validate = .ok () ↔ 1 ≤ s.bookmarkLimit ∧ Mark.firstFree ≤ s.firstMark := by
  unfold validate
  split
  · simp_all
  · split
    · rename_i h
      simp [UInt32.not_le.2 h]
    · rename_i h0 h1
      simp only [true_iff]
      exact ⟨by omega, UInt32.not_lt.1 h1⟩

end Settings

end LiveTable
