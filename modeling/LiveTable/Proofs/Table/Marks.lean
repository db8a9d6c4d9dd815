import LiveTable.Proofs.Table.Drift
import Mathlib

/-!
# Numbers of bookmarks in order

The numbers that bookmarks get over a run follow each other from the first one that the settings
name, whatever is freed, dropped, cleared or refused in between (`Minted.given_run`): the next
number lies as far above the first one as bookmarks were made, and the last number of all is never
given, so that none wraps around. No number is a reserved one, and there are never more bookmarks
than the settings allow.
-/

namespace LiveTable

def Command.gives (c : Command) (reply : Except Fault Reply) : Option Mark :=
  match c, reply with
  | .createBookmark, .ok (.mark m) => some m
  | _, _ => none

namespace Table

def given (t : Table) (commands : List Command) : List Mark :=
  (commands.zip (t.replies commands)).filterMap fun call => call.1.gives call.2

/-- What holds of the numbers of a run from a new table: they are given in order, none is
reserved, reserved ones lead nowhere, and no more are in use than may be. -/
structure NumbersInOrder (settings : Settings) (collation : Collation)
    (commands : List Command) : Prop where
  consecutive : ((empty settings collation).given commands).map (·.number.toNat) =
    List.range' settings.firstMark.toNat ((empty settings collation).given commands).length
  free : ∀ m ∈ (empty settings collation).given commands,
    3 ≤ m.number.toNat ∧ Origin.ofNumber m.number = .bookmark m
  reserved : ∀ m : Mark, m.number.toNat < 3 → ((empty settings collation).run commands).Refuses m
  bounded : ((empty settings collation).run commands).bookmarks.length ≤ settings.bookmarkLimit

/-- The bookmarks of a table that has made `count` of them under the settings. -/
structure Minted (t : Table) (settings : Settings) (count : Nat) : Prop where
  settings_eq : t.settings = settings
  next : t.nextMark.toNat = settings.firstMark.toNat + count
  above : ∀ b ∈ t.bookmarks, settings.firstMark.toNat ≤ b.mark.number.toNat
  bounded : t.bookmarks.length ≤ settings.bookmarkLimit

variable {t : Table} {settings : Settings} {count : Nat}

/-! ## One command -/

theorem gives_eq_made (t : Table) (c : Command) :
    (c.gives (t.perform c).1).toList = (t.made c).map (·.mark) := by
  cases c with
  | createBookmark =>
    have ha : t.answer .createBookmark = t.createBookmark.map fun r => (.mark r.1, r.2) := rfl
    rcases t.createBookmark_cases with ⟨fault, he⟩ | ⟨-, he⟩
    · rw [he] at ha
      rw [perform_of_error ha]
      simp only [made, he]
      rfl
    · rw [he] at ha
      rw [perform_of_ok ha]
      simp only [made, he]
      rfl
  | _ => rw [made_of_ne (by simp)]; rfl

theorem given_cons (t : Table) (c : Command) (rest : List Command) :
    t.given (c :: rest) = (t.made c).map (·.mark) ++ (t.perform c).2.given rest := by
  rw [← gives_eq_made, given, replies, List.zip_cons_cons]
  cases hm : c.gives (t.perform c).1 with
  | none => exact List.filterMap_cons_none hm
  | some m => exact List.filterMap_cons_some hm

theorem length_lt_of_made {c : Command} (hm : t.made c ≠ []) :
    t.bookmarks.length < t.settings.bookmarkLimit := by
  by_contra hge
  have he := (createBookmark_eq_error_iff t _).2 ⟨rfl, .inl (Nat.le_of_not_lt hge)⟩
  simp [made, he] at hm

theorem minted_empty (settings : Settings) (collation : Collation) :
    (empty settings collation).Minted settings 0 :=
  ⟨rfl, rfl, fun _ hb => absurd hb List.not_mem_nil, Nat.zero_le _⟩

theorem Minted.perform (h : t.Minted settings count) (hs : t.Sound) (c : Command) :
    (t.perform c).2.Minted settings (count + (t.made c).length) := by
  have hkept : (t.bookmarks.filter (!t.drops c ·)).length ≤ t.bookmarks.length :=
    List.length_filter_le ..
  have habove : ∀ b ∈ t.bookmarks.filter (!t.drops c ·),
      settings.firstMark.toNat ≤ b.mark.number.toNat :=
    fun b hb => h.above b (List.mem_filter.1 hb).1
  have hlimit := h.settings_eq ▸ length_lt_of_made (t := t) (c := c)
  have hbounded := h.bounded
  refine ⟨(t.settings_perform c).trans h.settings_eq, ?_, ?_, ?_⟩
  · rcases t.made_cases c with ⟨hm, hn⟩ | ⟨hm, hn⟩
    all_goals rw [hn, hm, h.next]; rfl
  · rw [hs.bookmarks_eq, List.forall_mem_append]
    refine ⟨habove, ?_⟩
    rcases t.made_cases c with ⟨hm, -⟩ | ⟨hm, -⟩
    · simp [hm]
    · simp [hm, h.next]
  · rw [hs.bookmarks_eq, List.length_append]
    rcases t.made_cases c with ⟨hm, -⟩ | ⟨hm, -⟩
    · rw [hm, List.length_nil]
      omega
    · have hlt := hlimit (by simp [hm])
      rw [hm, List.length_singleton]
      omega

theorem Minted.made_numbers (h : t.Minted settings count) (c : Command) :
    ((t.made c).map (·.mark)).map (·.number.toNat) =
      List.range' (settings.firstMark.toNat + count) (t.made c).length := by
  rcases t.made_cases c with ⟨hm, -⟩ | ⟨hm, -⟩
  · simp [hm]
  · simp [hm, h.next]

/-! ## A run -/

theorem Minted.run (h : t.Minted settings count) (hs : t.Sound) (commands : List Command) :
    (t.run commands).Minted settings (count + (t.given commands).length) ∧
      (t.given commands).map (·.number.toNat) =
        List.range' (settings.firstMark.toNat + count) (t.given commands).length := by
  induction commands generalizing t count with
  | nil => exact ⟨h, rfl⟩
  | cons c rest ih =>
    obtain ⟨hrun, hnumbers⟩ := ih (h.perform hs c) (hs.perform c)
    rw [given_cons, run_cons, List.length_append, List.length_map, ← Nat.add_assoc]
    refine ⟨hrun, ?_⟩
    -- the numbers of the rest go on where those of the first command end
    rw [List.map_append, h.made_numbers, hnumbers, ← Nat.add_assoc, List.range'_append_1]

/-- The numbers of bookmarks follow each other from the first one on over every run. -/
theorem numbersInOrder_of_valid {settings : Settings} (hv : settings.validate = .ok ())
    (collation : Collation) (commands : List Command) :
    NumbersInOrder settings collation commands := by
  obtain ⟨hminted, hnumbers⟩ :=
    (minted_empty settings collation).run (sound_empty settings collation) commands
  have hfirst : 3 ≤ settings.firstMark.toNat :=
    UInt32.le_iff_toNat_le.1 ((settings.validate_eq_ok_iff).1 hv).2
  refine ⟨hnumbers, fun m hm => ?_, fun m hm => ?_, hminted.bounded⟩
  · have hin := List.mem_map_of_mem (f := fun m : Mark => m.number.toNat) hm
    rw [hnumbers, List.mem_range'_1] at hin
    have hfree : 3 ≤ m.number.toNat := by omega
    refine ⟨hfree, Origin.ofNumber_of_not_isReserved ?_⟩
    rw [← Bool.not_eq_true, Mark.isReserved_iff]
    omega
  · apply refuses_of_absent
    rintro b hb rfl
    have := hminted.above b hb
    omega

/-- Settings under which two numbers are left. -/
def lastTwo : Settings := { bookmarkLimit := 2, firstMark := 0xfffffffd }

/-- Three bookmarks are asked for at once, and again after one was freed and the rest dropped. -/
def askedTwice : List Command :=
  [.createBookmark, .put ⟨1, 1⟩ [] false, .createBookmark, .createBookmark,
    .freeBookmark ⟨0xfffffffd⟩, .clear, .createBookmark]

/-- After the last two numbers none is given any more, though no bookmark is left. -/
theorem numbersInOrder_of_lastTwo :
    lastTwo.validate = .ok () ∧ NumbersInOrder lastTwo .bytewise askedTwice ∧
      (empty lastTwo .bytewise).given askedTwice = [⟨0xfffffffd⟩, ⟨0xfffffffe⟩] ∧
      ((empty lastTwo .bytewise).run askedTwice).bookmarks = [] :=
  ⟨rfl, numbersInOrder_of_valid rfl .bytewise askedTwice, by cbv, by cbv⟩

end Table

end LiveTable
