import LiveTable.Table.Command

/-!
# Tables that do not count

A table whose tally is not enabled differs from one that counts in its settings and in its tally
only (`mute`). No call reads the tally, so that every command has the same answer on both and leaves
tables that differ in the same way (`perform_mute`), and so has every run (`replies_mute`).
-/

namespace LiveTable.Table

/-- The table as it would be if it had never counted. -/
def mute (t : Table) : Table :=
  { t with settings := { t.settings with collectTally := false }, tally := .zero false }

def muted {α : Type} (result : Except Fault (α × Table)) : Except Fault (α × Table) :=
  result.map fun r => (r.1, r.2.mute)

variable {t : Table} {key : Key}

@[simp] theorem tally_mute (t : Table) : t.mute.tally = .zero false := rfl

theorem empty_mute (settings : Settings) (collation : Collation) :
    (empty settings collation).mute =
      empty { settings with collectTally := false } collation := rfl

theorem lookup_mute (t : Table) (key : Key) : t.mute.lookup key = t.lookup key := rfl

/-! ## Calls -/

theorem put_mute (t : Table) (key : Key) (columns : SortKey) (hidden : Bool) :
    t.mute.put key columns hidden = muted (t.put key columns hidden) := by
  have hf : t.mute.focus? key = t.focus? key := rfl
  unfold put
  rw [hf]
  by_cases hk : key = .reserved
  · rw [if_pos hk, if_pos hk]
    rfl
  · rw [if_neg hk, if_neg hk]
    cases t.focus? key with
    | none => rfl
    | some f =>
      have ha : t.mute.alike f.entry.columns columns = t.alike f.entry.columns columns := rfl
      simp only [ha]
      cases t.alike f.entry.columns columns <;> rfl

theorem setColumn_mute (t : Table) (key : Key) (index : Nat) (column : Column) :
    t.mute.setColumn key index column = muted (t.setColumn key index column) := by
  simp only [setColumn, lookup_mute, put_mute]
  cases t.lookup key with
  | error fault => rfl
  | ok f =>
    by_cases hi : f.entry.columns.length ≤ index
    · simp only [bind, Except.bind, if_pos hi]
      rfl
    · simp only [bind, Except.bind, if_neg hi]
      cases t.put key (f.entry.columns.set index column) f.entry.hidden <;> rfl

theorem seek_mute (t : Table) (origin : Origin) (offset : Int) :
    t.mute.seek origin offset = muted (t.seek origin offset) := by
  have ho : t.mute.origin origin = t.origin origin := by cases origin <;> rfl
  simp only [seek, ho]
  cases t.origin origin <;> rfl

theorem createBookmark_mute (t : Table) :
    t.mute.createBookmark = muted t.createBookmark := by
  have hfull : (t.mute.settings.bookmarkLimit ≤ t.mute.bookmarks.length ∨
      t.mute.nextMark = lastMark) =
        (t.settings.bookmarkLimit ≤ t.bookmarks.length ∨ t.nextMark = lastMark) := rfl
  simp only [createBookmark, hfull]
  split
  all_goals rfl

theorem collapse_mute (t : Table) (key : Key) :
    t.mute.collapse key = muted (t.collapse key) := by
  simp only [collapse, lookup_mute]
  cases t.lookup key <;> rfl

theorem expand_mute (t : Table) (key : Key) :
    t.mute.expand key = muted (t.expand key) := by
  simp only [expand, lookup_mute]
  cases t.lookup key with
  | error fault => rfl
  | ok f =>
    cases hh : f.entry.hidden with
    | true =>
      simp only [bind, Except.bind, hh, if_true]
      rfl
    | false =>
      simp only [bind, Except.bind, hh, Bool.false_eq_true, if_false]
      rfl

/-! ## Commands and runs -/

theorem map_muted {α : Type} (x : Except Fault (α × Table)) (reply : α → Reply) :
    (muted x).map (fun r => (reply r.1, r.2)) = muted (x.map fun r => (reply r.1, r.2)) := by
  cases x <;> rfl

theorem map_ask_mute {α : Type} (x : Except Fault α) (reply : α → Reply) (t : Table) :
    x.map (fun a => (reply a, t.mute)) = muted (x.map fun a => (reply a, t)) := by
  cases x <;> rfl

theorem answer_mute (t : Table) (c : Command) : t.mute.answer c = muted (t.answer c) := by
  cases c with
  | put key columns hidden =>
    exact (congrArg (Except.map _) (put_mute ..)).trans (map_muted _ Reply.placed)
  | setColumn key index column =>
    exact (congrArg (Except.map _) (setColumn_mute ..)).trans (map_muted _ Reply.recolumned)
  | seek origin offset =>
    exact (congrArg (Except.map _) (seek_mute ..)).trans (map_muted _ Reply.travelled)
  | createBookmark =>
    exact (congrArg (Except.map _) (createBookmark_mute t)).trans (map_muted _ Reply.mark)
  | collapse key =>
    exact (congrArg (Except.map _) (collapse_mute ..)).trans (map_muted _ Reply.keys)
  | expand key =>
    exact (congrArg (Except.map _) (expand_mute ..)).trans (map_muted _ Reply.keys)
  | erase key =>
    simp only [answer, erase, lookup_mute]
    cases t.lookup key <;> rfl
  | goTo key =>
    simp only [answer, goTo, lookup_mute]
    cases t.lookup key <;> rfl
  | freeBookmark mark =>
    have hb : t.mute.bookmark mark = t.bookmark mark := rfl
    simp only [answer, freeBookmark, hb]
    cases t.bookmark mark <;> rfl
  | visibleBefore key => exact map_ask_mute (t.visibleBefore key) .key t
  | resolve mark => exact map_ask_mute (t.resolve mark) .standing t
  | family key => exact map_ask_mute (t.family key) .keys t
  | get key => exact map_ask_mute (t.get key) .row t
  | verify => exact map_ask_mute t.verify (fun _ => .done) t
  | read r =>
    cases ha : r.advance with
    | true =>
      simp only [answer, read, ha, if_true]
      rfl
    | false =>
      simp only [answer, read, ha, Bool.false_eq_true, if_false]
      rfl
  | clear | next | prev | lowerBound | find | contains | isEmpty | rowCount => rfl

/-- A command has the same answer on a table that does not count, and the same effect otherwise. -/
theorem perform_mute (t : Table) (c : Command) :
    t.mute.perform c = ((t.perform c).1, (t.perform c).2.mute) := by
  rw [perform, answer_mute, perform]
  cases t.answer c <;> rfl

theorem run_mute (t : Table) (commands : List Command) :
    t.mute.run commands = (t.run commands).mute := by
  induction commands generalizing t with
  | nil => rfl
  | cons c rest ih => rw [run_cons, run_cons, perform_mute, ih]

theorem replies_mute (t : Table) (commands : List Command) :
    t.mute.replies commands = t.replies commands := by
  induction commands generalizing t with
  | nil => rfl
  | cons c rest ih => rw [replies, replies, perform_mute, ih]

end LiveTable.Table
