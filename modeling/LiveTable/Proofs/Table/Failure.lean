import LiveTable.Proofs.Table.InPlace
import LiveTable.Proofs.Table.Integrity
import LiveTable.Proofs.Table.Steering

/-!
# When commands fail

`refusal` says from the list of rows and the bookmarks alone which commands fail and with which
fault. In every reachable table a command fails exactly as it says (`failsExactly_of_reachable`):
what the store and the tree find under a key is what the list has under it, and the reserved key is
under no row, so that replacing a column is never refused for the key. A command that fails, carried
out in place, leaves the whole table as it was.
-/

namespace LiveTable

def faultOf {α : Type} : Except Fault α → Option Fault
  | .ok _ => none
  | .error fault => some fault

section

variable {α β : Type} {x : Except Fault α} {fault : Fault}

theorem faultOf_eq_some_iff : faultOf x = some fault ↔ x = .error fault := by
  cases x <;> simp [faultOf]

theorem faultOf_map (f : α → β) : faultOf (x.map f) = faultOf x := by
  cases x <;> rfl

theorem faultOf_bind {next : α → Except Fault β} (h : ∀ a, faultOf (next a) = none) :
    faultOf (x >>= next) = faultOf x := by
  cases x with
  | ok a => exact h a
  | error fault => rfl

end

namespace Table

def row? (t : Table) (key : Key) : Option Entry := t.entries.find? (·.key = key)

/-- The fault that no row has the key, unless one has it. -/
def absence (t : Table) (key : Key) : Option Fault :=
  if (t.row? key).isSome then none else some (.notFound key)

/-- The fault of a command that fails. -/
def refusal (t : Table) : Command → Option Fault
  | .put key _ _ => if key = .reserved then some (.reservedKey key) else none
  | .erase key | .goTo key | .get key | .visibleBefore key | .collapse key | .family key =>
    t.absence key
  | .expand key =>
    match t.row? key with
    | some header => if header.hidden then some (.notFound key) else none
    | none => some (.notFound key)
  | .setColumn key index _ =>
    match t.row? key with
    | some e =>
      if index < e.columns.length then none
      else some (.columnOutOfRange index key e.columns.length)
    | none => some (.notFound key)
  | .resolve mark | .freeBookmark mark | .seek (.bookmark mark) _ =>
    if mark ∈ t.bookmarks.map (·.mark) then none else some (.invalidBookmark mark)
  | .createBookmark =>
    if t.settings.bookmarkLimit ≤ t.bookmarks.length ∨ t.nextMark = lastMark then
      some (.exhausted t.settings.bookmarkLimit)
    else none
  | .verify => (misordered? t.compare t.entries).map fun (a, b) => (Flaw.misordered a b).fault
  | _ => none

variable {t : Table} {c : Command} {key : Key}

/-! ## Rows by key -/

theorem Sound.row?_eq (h : t.Sound) (key : Key) : t.row? key = (t.focus? key).map (·.entry) := by
  cases hf : t.focus? key with
  | none =>
    have hk := h.focus?_eq_none_iff.1 hf
    exact List.find?_eq_none.2 fun e he => by simpa using fun hek => hk ⟨e, he, hek⟩
  | some f =>
    obtain ⟨hs, rfl⟩ := h.splits_of_focus? hf
    exact h.distinct.find?_eq (mem_of_splits hs)

theorem Sound.faultOf_lookup (h : t.Sound) (key : Key) :
    faultOf (t.lookup key) = t.absence key := by
  rw [absence, h.row?_eq]
  cases hf : t.focus? key with
  | none => rw [lookup_of_none hf]; rfl
  | some f => rw [lookup_of_some hf]; rfl

/-! ## The reserved key -/

theorem hasKey_of_detach {f : Focus} {xs ys : List Entry} {e : Entry}
    (hs : f.Splits t.tree xs e ys) (h : HasKey (t.detach f).entries key) : HasKey t.entries key := by
  obtain ⟨a, ha, rfl⟩ := h
  rw [entries_detach hs] at ha
  exact ⟨a, entries_of_splits hs ▸ mem_middle.2 (.inr ha), rfl⟩

theorem Sound.unreserved_perform_put (h : t.Sound) (hr : ¬ HasKey t.entries .reserved) (key : Key)
    (columns : SortKey) (hidden : Bool) :
    ¬ HasKey (t.perform (.put key columns hidden)).2.entries .reserved := by
  rcases t.perform_put key columns hidden with ⟨-, he⟩ | ⟨hk, -, he⟩ | ⟨f, -, -, -, he⟩ |
    ⟨f, hk, hf, -, he⟩
  all_goals rw [he]
  · exact hr
  · intro hn
    rcases (hasKey_attach ..).1 hn with hn | hn
    · exact hk hn.symm
    · exact hr hn
  · exact hr
  · obtain ⟨hs, -⟩ := h.splits_of_focus? hf
    intro hn
    rcases (hasKey_attach ..).1 hn with hn | hn
    · exact hk hn.symm
    · exact hr (hasKey_of_detach hs hn)

theorem Sound.unreserved_perform (h : t.Sound) (hr : ¬ HasKey t.entries .reserved) (c : Command) :
    ¬ HasKey (t.perform c).2.entries .reserved := by
  cases c using Command.edits_cases with
  | same c hc => rwa [(t.perform_same hc).entries]
  | put key columns hidden => exact h.unreserved_perform_put hr key columns hidden
  | setColumn key index column =>
    rw [perform_setColumn]
    split
    · exact h.unreserved_perform_put hr key _ _
    · exact hr
  | erase key =>
    rcases t.perform_erase key with ⟨-, he⟩ | ⟨f, hf, he⟩
    all_goals rw [he]
    · exact hr
    · exact mt (hasKey_of_detach (h.splits_of_focus? hf).1) hr
  | clear => exact fun ⟨e, hm, _⟩ => List.not_mem_nil hm
  | collapse key =>
    rcases t.perform_collapse key with ⟨-, he⟩ | ⟨f, hf, he⟩
    all_goals rw [he]
    · exact hr
    · exact mt (sameRows_collapsed (h.splits_of_focus? hf).1).hasKey.1 hr
  | expand key =>
    rcases t.perform_expand key with he | ⟨f, n, hf, he⟩
    all_goals rw [he]
    · exact hr
    · exact mt (sameRows_expanded (h.splits_of_focus? hf).1).hasKey.1 hr

theorem Sound.unreserved_run (h : t.Sound) (hr : ¬ HasKey t.entries .reserved)
    (commands : List Command) : ¬ HasKey (t.run commands).entries .reserved := by
  induction commands generalizing t with
  | nil => exact hr
  | cons c rest ih => exact ih (h.perform c) (h.unreserved_perform hr c)

theorem Reachable.unreserved (h : t.Reachable) : ¬ HasKey t.entries .reserved := by
  obtain ⟨settings, collation, commands, -, rfl⟩ := h
  exact (sound_empty settings collation).unreserved_run (fun ⟨_, hm, _⟩ => List.not_mem_nil hm)
    commands

/-! ## The calls -/

theorem faultOf_put (t : Table) (key : Key) (columns : SortKey) (hidden : Bool) :
    faultOf (t.put key columns hidden) =
      if key = .reserved then some (.reservedKey key) else none := by
  rcases t.put_cases key columns hidden with ⟨hk, he⟩ | ⟨hk, -, he⟩ | ⟨f, hk, -, -, he⟩ |
    ⟨f, hk, -, -, he⟩
  · rw [he, if_pos hk]; rfl
  all_goals rw [he, if_neg hk]; rfl

theorem Sound.faultOf_setColumn (h : t.Sound) (hr : ¬ HasKey t.entries .reserved) (key : Key)
    (index : Nat) (column : Column) :
    faultOf (t.setColumn key index column) = t.refusal (.setColumn key index column) := by
  rw [refusal, h.row?_eq]
  cases hf : t.focus? key with
  | none => rw [setColumn_of_none hf]; rfl
  | some f =>
    show _ = if index < f.entry.columns.length then none
      else some (Fault.columnOutOfRange index key f.entry.columns.length)
    by_cases hi : index < f.entry.columns.length
    · obtain ⟨hs, rfl⟩ := h.splits_of_focus? hf
      have hk : f.key ≠ .reserved := fun he => hr ⟨f.entry, mem_of_splits hs, he⟩
      rw [setColumn_of_lt hf hi, faultOf_map, faultOf_put, if_neg hk, if_pos hi]
    · rw [setColumn_of_le hf (Nat.le_of_not_lt hi), if_neg hi]
      rfl

theorem Sound.faultOf_expand (h : t.Sound) (key : Key) :
    faultOf (t.expand key) = t.refusal (.expand key) := by
  rw [refusal, h.row?_eq]
  cases hf : t.focus? key with
  | none => rw [expand_of_none hf]; rfl
  | some f =>
    show _ = if f.entry.hidden then some (Fault.notFound key) else none
    by_cases hh : f.entry.hidden = true
    · rw [expand_of_hidden hf hh, if_pos hh]
      rfl
    · rw [expand_of_some hf (Bool.not_eq_true _ ▸ hh), if_neg hh]
      rfl

theorem faultOf_bookmark (t : Table) (mark : Mark) :
    faultOf (t.bookmark mark) =
      if mark ∈ t.bookmarks.map (·.mark) then none else some (.invalidBookmark mark) := by
  by_cases hm : mark ∈ t.bookmarks.map (·.mark)
  · rw [if_pos hm]
    cases hb : t.bookmark mark with
    | ok b => rfl
    | error fault =>
      obtain ⟨b, hm, he⟩ := List.mem_map.1 hm
      exact absurd he (ne_of_bookmark_error hb b hm)
  · rw [if_neg hm, bookmark_eq_error fun b hb he => hm (List.mem_map.2 ⟨b, hb, he⟩)]
    rfl

theorem faultOf_createBookmark (t : Table) :
    faultOf t.createBookmark = t.refusal .createBookmark := by
  rw [refusal, createBookmark]
  split
  · rfl
  · rfl

theorem faultOf_verify (t : Table) : faultOf t.verify = t.refusal .verify := by
  rw [refusal, verify]
  cases misordered? t.compare t.entries with
  | none => rfl
  | some pair => rfl

/-- The refusal of a command is the fault that it is answered with. -/
theorem Sound.faultOf_answer (h : t.Sound) (hr : ¬ HasKey t.entries .reserved) (c : Command) :
    faultOf (t.answer c) = t.refusal c := by
  have hbookmark (mark : Mark) : faultOf (t.resolve mark) = t.refusal (.resolve mark) :=
    (faultOf_bind fun _ => rfl).trans (t.faultOf_bookmark mark)
  cases c with
  | put key columns hidden => exact (faultOf_map _).trans (t.faultOf_put key columns hidden)
  | setColumn key index column => exact (faultOf_map _).trans (h.faultOf_setColumn hr ..)
  | expand key => exact (faultOf_map _).trans (h.faultOf_expand key)
  | erase key | goTo key | visibleBefore key | collapse key | family key =>
    exact (faultOf_map _).trans ((faultOf_bind fun _ => rfl).trans (h.faultOf_lookup key))
  | get key => exact (faultOf_map _).trans ((faultOf_map _).trans (h.faultOf_lookup key))
  | resolve mark => exact (faultOf_map _).trans (hbookmark mark)
  | freeBookmark mark =>
    exact (faultOf_map _).trans ((faultOf_bind fun _ => rfl).trans (t.faultOf_bookmark mark))
  | seek origin offset =>
    refine (faultOf_map _).trans ((faultOf_bind fun _ => rfl).trans ?_)
    cases origin with
    | bookmark mark => exact hbookmark mark
    | start | current | finish => rfl
  | createBookmark => exact (faultOf_map _).trans t.faultOf_createBookmark
  | verify => exact (faultOf_map _).trans t.faultOf_verify
  | clear | next | prev | lowerBound | find | read | contains | isEmpty | rowCount => rfl

/-! ## Failures -/

/-- A command fails where it is refused and only there, and changes nothing where it fails, also
when it is carried out in place. -/
structure FailsExactly (t : Table) (c : Command) : Prop where
  inPlace : (Procedure.ofCommand c).on t = t.perform c
  fails_iff (fault : Fault) :
    ((Procedure.ofCommand c).on t).1 = .error fault ↔ t.refusal c = some fault
  unchanged (fault : Fault) :
    ((Procedure.ofCommand c).on t).1 = .error fault → ((Procedure.ofCommand c).on t).2 = t

theorem failsExactly_of_reachable (h : t.Reachable) (c : Command) : t.FailsExactly c := by
  have hs := h.sound
  have hplace := Procedure.on_ofCommand hs c
  have hfault : faultOf (t.perform c).1 = t.refusal c := by
    rw [← hs.faultOf_answer h.unreserved c, perform_eq_settle]
    cases t.answer c <;> rfl
  refine ⟨hplace, fun fault => ?_, fun fault he => ?_⟩
  · rw [hplace, ← hfault, faultOf_eq_some_iff]
  · rw [hplace] at he ⊢
    exact perform_snd_of_error he

/-- Freeing a bookmark that is not there and expanding a hidden row. -/
theorem failsExactly_of_reachable_on_member :
    onMember.Reachable ∧
      (Procedure.ofCommand (.freeBookmark ⟨9⟩)).on onMember =
        (.error (.invalidBookmark ⟨9⟩), onMember) ∧
      (Procedure.ofCommand (.expand ⟨1, 3⟩)).on onMember =
        (.error (.notFound ⟨1, 3⟩), onMember) := by
  have ht : onMember.Reachable := ⟨{}, .bytewise, _, rfl, rfl⟩
  have hfree := failsExactly_of_reachable ht (.freeBookmark ⟨9⟩)
  have hexpand := failsExactly_of_reachable ht (.expand ⟨1, 3⟩)
  have h1 := (hfree.fails_iff (.invalidBookmark ⟨9⟩)).2 (by cbv)
  have h2 := (hexpand.fails_iff (.notFound ⟨1, 3⟩)).2 (by cbv)
  exact ⟨ht, Prod.ext h1 (hfree.unchanged _ h1), Prod.ext h2 (hexpand.unchanged _ h2)⟩

end Table

end LiveTable
