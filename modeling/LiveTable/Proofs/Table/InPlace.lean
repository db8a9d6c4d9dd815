import LiveTable.Proofs.Table.Bookmark
import LiveTable.Proofs.Table.Seek
import LiveTable.Table.InPlace

/-!
# In place or as a whole

A command carried out in place answers as `perform` does and leaves the table that `perform` leaves
(`on_ofCommand`), also where it fails: no procedure has changed anything by the time that it is
refused. The one that frees a bookmark writes before it checks, but where there is no such bookmark
it leaves out none. So the same tables are reached in both ways (`runAll_eq`).
-/

namespace LiveTable

/-- A call on the whole table, as a call in place that writes only where it succeeds. -/
def Table.settle {α : Type} (t : Table) : Except Fault (α × Table) → Except Fault α × Table
  | .ok (a, t') => (.ok a, t')
  | .error fault => (.error fault, t)

theorem Table.perform_eq_settle (t : Table) (c : Command) :
    t.perform c = t.settle (t.answer c) := by
  cases h : t.answer c with
  | ok r => exact perform_of_ok h
  | error fault => exact perform_of_error h

namespace Procedure

section

variable {α β : Type} {t : Table}

theorem on_modifyGet (f : Table → α × Table) (t : Table) :
    on (modifyGet f) t = (.ok (f t).1, (f t).2) := rfl

theorem on_ask (question : Table → Except Fault α) (t : Table) :
    on (ask question) t = (question t, t) := by
  show on (MonadExcept.ofExcept (question t)) t = _
  cases question t <;> rfl

theorem on_bind (p : Procedure α) (next : α → Procedure β) (t : Table) :
    on (p >>= next) t = match on p t with
      | (.ok a, t') => on (next a) t'
      | (.error fault, t') => (.error fault, t') := by
  unfold on
  rw [ExceptT.run_bind, StateT.run_bind]
  rcases StateT.run p.run t with ⟨_ | _, t'⟩
  · rfl
  · rfl

theorem on_bind_ok {p : Procedure α} {a : α} {t' : Table} (h : on p t = (.ok a, t'))
    (next : α → Procedure β) : on (p >>= next) t = on (next a) t' := by
  rw [on_bind, h]

theorem on_bind_error {p : Procedure α} {fault : Fault} {t' : Table}
    (h : on p t = (.error fault, t')) (next : α → Procedure β) :
    on (p >>= next) t = (.error fault, t') := by
  rw [on_bind, h]

theorem on_ask_ok {question : Table → Except Fault α} {a : α} (h : question t = .ok a)
    (next : α → Procedure β) : on (ask question >>= next) t = on (next a) t :=
  on_bind_ok (by rw [on_ask, h]) next

theorem on_ask_error {question : Table → Except Fault α} {fault : Fault}
    (h : question t = .error fault) (next : α → Procedure β) :
    on (ask question >>= next) t = (.error fault, t) :=
  on_bind_error (by rw [on_ask, h]) next

theorem on_answer {p : Procedure α} {x : Except Fault (α × Table)} (h : on p t = t.settle x)
    (reply : α → β) :
    on (do return reply (← p)) t = t.settle (x.map fun (a, t') => (reply a, t')) := by
  cases x with
  | ok r => exact on_bind_ok h _
  | error fault => exact on_bind_error h _

theorem on_ask_answer (question : Table → Except Fault α) (reply : α → β) (t : Table) :
    on (do return reply (← ask question)) t =
      t.settle ((question t).map fun a => (reply a, t)) := by
  cases h : question t with
  | ok a => exact on_ask_ok h _
  | error fault => exact on_ask_error h _

end

/-! ## Rows -/

variable {t : Table}

theorem on_put (h : t.Sound) (key : Key) (columns : SortKey) (hidden : Bool) :
    on (put key columns hidden) t = t.settle (t.put key columns hidden) := by
  unfold put Table.put
  by_cases hk : key = .reserved
  · rw [if_pos hk, if_pos hk]
    rfl
  · rw [if_neg hk, if_neg hk]
    cases hf : t.focus? key with
    | none =>
      refine (on_bind_ok (a := t) rfl _).trans ?_
      simp only [hf]
      rfl
    | some f =>
      refine (on_bind_ok (a := t) rfl _).trans ?_
      simp only [hf]
      cases ha : t.alike f.entry.columns columns with
      | true => rfl
      | false =>
        obtain ⟨-, rfl⟩ := h.splits_of_focus? hf
        rw [if_neg (by simp), if_neg (by simp)]
        refine (on_bind_ok (a := ()) rfl _).trans ?_
        refine (on_bind_ok (on_modifyGet _ _) _).trans ?_
        by_cases hc : t.cursor = .row f.key
        · -- the cursor is back where it was
          rw [if_pos hc, hc]
          rfl
        · have hstay : (t.detach f).cursor = t.cursor := if_neg hc
          rw [if_neg hc, ← hstay]
          rfl

theorem on_erase (key : Key) (t : Table) :
    on (erase key) t = t.settle ((t.erase key).map fun t' => ((), t')) := by
  cases hf : t.focus? key with
  | none =>
    rw [Table.erase_of_none hf]
    exact on_ask_error (Table.lookup_of_none hf) _
  | some f =>
    rw [Table.erase_of_some hf]
    exact on_ask_ok (Table.lookup_of_some hf) _

theorem on_setColumn (h : t.Sound) (key : Key) (index : Nat) (column : Column) :
    on (setColumn key index column) t = t.settle (t.setColumn key index column) := by
  cases hf : t.focus? key with
  | none =>
    rw [Table.setColumn_of_none hf]
    exact on_ask_error (Table.lookup_of_none hf) _
  | some f =>
    refine (on_ask_ok (Table.lookup_of_some hf) _).trans ?_
    rcases Nat.lt_or_ge index f.entry.columns.length with hi | hi
    · rw [Table.setColumn_of_lt hf hi, if_neg (Nat.not_le.2 hi)]
      exact on_answer (on_put h key _ _) _
    · rw [Table.setColumn_of_le hf hi, if_pos hi]
      rfl

/-! ## Cursor and bookmarks -/

theorem on_seek (origin : Origin) (offset : Int) (t : Table) :
    on (seek origin offset) t = t.settle (t.seek origin offset) := by
  cases ho : t.origin origin with
  | error fault =>
    rw [Table.seek_of_error ho]
    exact on_ask_error ho _
  | ok start =>
    rw [Table.seek, ho]
    exact on_ask_ok ho _

theorem on_goTo (key : Key) (t : Table) :
    on (goTo key) t = t.settle ((t.goTo key).map fun t' => ((), t')) := by
  cases hf : t.focus? key with
  | none =>
    rw [Table.goTo_of_none hf]
    exact on_ask_error (Table.lookup_of_none hf) _
  | some f =>
    rw [Table.goTo_of_some hf]
    exact on_ask_ok (Table.lookup_of_some hf) _

theorem on_createBookmark (t : Table) :
    on createBookmark t = t.settle t.createBookmark := by
  refine (on_bind_ok (a := t) rfl _).trans ?_
  unfold Table.createBookmark
  by_cases hl : t.settings.bookmarkLimit ≤ t.bookmarks.length
  · simp only [hl, true_or, if_true]
    rfl
  · by_cases hn : t.nextMark = Table.lastMark
    · simp only [hl, hn, or_true, if_true, if_false]
      rfl
    · simp only [hl, hn, or_false, if_false]
      rfl

theorem on_freeBookmark (mark : Mark) (t : Table) :
    on (freeBookmark mark) t = t.settle ((t.freeBookmark mark).map fun t' => ((), t')) := by
  refine (on_bind_ok (a := t) rfl _).trans ?_
  refine (on_bind_ok (a := ()) rfl _).trans ?_
  cases hb : t.bookmarks.find? (·.mark = mark) with
  | none =>
    have hrefused : t.freeBookmark mark = .error (.invalidBookmark mark) := by
      simp only [Table.freeBookmark, Table.bookmark, hb]
      rfl
    have hall : t.bookmarks.filter (·.mark ≠ mark) = t.bookmarks :=
      List.filter_eq_self.2 fun b hm => by simpa using List.find?_eq_none.1 hb b hm
    simp only [hrefused, hall]
    rfl
  | some b =>
    obtain rfl : b.mark = mark := by simpa using List.find?_some hb
    have hfreed : t.freeBookmark b.mark =
        .ok { t with bookmarks := t.bookmarks.filter (·.mark ≠ b.mark) } := by
      simp only [Table.freeBookmark, Table.bookmark, hb]
      rfl
    rw [hfreed]
    rfl

/-! ## Categories -/

theorem on_collapse (key : Key) (t : Table) :
    on (collapse key) t = t.settle (t.collapse key) := by
  cases hf : t.focus? key with
  | none =>
    rw [Table.collapse_of_none hf]
    exact on_ask_error (Table.lookup_of_none hf) _
  | some f =>
    rw [Table.collapse, Table.lookup_of_some hf]
    exact on_ask_ok (Table.lookup_of_some hf) _

theorem on_expand (key : Key) (t : Table) :
    on (expand key) t = t.settle (t.expand key) := by
  cases hf : t.focus? key with
  | none =>
    rw [Table.expand_of_none hf]
    exact on_ask_error (Table.lookup_of_none hf) _
  | some f =>
    refine (on_ask_ok (Table.lookup_of_some hf) _).trans ?_
    by_cases hh : f.entry.hidden = true
    · rw [Table.expand_of_hidden hf hh]
      exact congrArg (on · t) (if_pos hh)
    · rw [Table.expand, Table.lookup_of_some hf]
      refine (congrArg (on · t) (if_neg hh)).trans (.trans ?_ (congrArg t.settle (if_neg hh)).symm)
      rfl

/-! ## Commands -/

theorem on_done {p : Procedure Unit} {x : Except Fault Table}
    (h : on p t = t.settle (x.map fun t' => ((), t'))) :
    on (do p; return Reply.done) t = t.settle (x.map fun t' => (.done, t')) := by
  cases x with
  | ok t' => exact on_bind_ok h _
  | error fault => exact on_bind_error h _

/-- In place a command comes to what it comes to on the whole table. -/
theorem on_ofCommand (h : t.Sound) (c : Command) : on (ofCommand c) t = t.perform c := by
  rw [Table.perform_eq_settle]
  cases c with
  | put key columns hidden => exact on_answer (on_put h key columns hidden) _
  | erase key => exact on_done (on_erase key t)
  | setColumn key index column => exact on_answer (on_setColumn h key index column) _
  | seek origin offset => exact on_answer (on_seek origin offset t) _
  | goTo key => exact on_done (on_goTo key t)
  | createBookmark => exact on_answer (on_createBookmark t) _
  | freeBookmark mark => exact on_done (on_freeBookmark mark t)
  | collapse key => exact on_answer (on_collapse key t) _
  | expand key => exact on_answer (on_expand key t) _
  | visibleBefore key => exact on_ask_answer _ _ t
  | resolve mark => exact on_ask_answer _ _ t
  | family key => exact on_ask_answer _ _ t
  | get key => exact on_ask_answer _ _ t
  | verify => exact on_ask_answer _ _ t
  | clear | next | prev | lowerBound | find | read | contains | isEmpty | rowCount => rfl

/-- Whatever commands are carried out in place, failed ones included, they lead to the table that
they lead to as a whole. -/
theorem runAll_eq (h : t.Sound) (commands : List Command) :
    runAll t commands = t.run commands := by
  induction commands generalizing t with
  | nil => rfl
  | cons c rest ih =>
    show runAll ((ofCommand c).on t).2 rest = (t.perform c).2.run rest
    rw [on_ofCommand h]
    exact ih (h.perform c)

end Procedure

end LiveTable
