import LiveTable.Proofs.Table.Category
import LiveTable.Proofs.Table.Cursor
import LiveTable.Proofs.Table.Edit

/-!
# What a command does to a table

Of all commands only six may change the rows (`Command.edits`); the others leave them as they are
and change the cursor, the bookmarks and the tally at most. For each of the six there is a lemma
that lists what may become of the table. Replacing a column is a `put` in disguise.
-/

namespace LiveTable

def Command.edits : Command → Bool
  | .put .. | .erase _ | .setColumn .. | .clear | .collapse _ | .expand _ => true
  | _ => false

/-- The commands that edit one by one, the others together. -/
@[elab_as_elim]
theorem Command.edits_cases {motive : Command → Prop}
    (same : ∀ c : Command, c.edits = false → motive c)
    (put : ∀ key columns hidden, motive (.put key columns hidden))
    (setColumn : ∀ key index column, motive (.setColumn key index column))
    (erase : ∀ key, motive (.erase key)) (clear : motive .clear)
    (collapse : ∀ key, motive (.collapse key)) (expand : ∀ key, motive (.expand key))
    (c : Command) : motive c := by
  cases c with
  | put key columns hidden => exact put key columns hidden
  | setColumn key index column => exact setColumn key index column
  | erase key => exact erase key
  | clear => exact clear
  | collapse key => exact collapse key
  | expand key => exact expand key
  | _ => exact same _ rfl

/-- The command puts a row, as it is given or with one column replaced. -/
def Command.puts : Command → Bool
  | .put .. | .setColumn .. => true
  | _ => false

@[elab_as_elim]
theorem Command.puts_cases {motive : Command → Prop}
    (same : ∀ c : Command, c.edits = false → motive c)
    (puts : ∀ c : Command, c.puts = true → motive c)
    (erase : ∀ key, motive (.erase key)) (clear : motive .clear)
    (collapse : ∀ key, motive (.collapse key)) (expand : ∀ key, motive (.expand key))
    (c : Command) : motive c :=
  Command.edits_cases same (fun _ _ _ => puts _ rfl) (fun _ _ _ => puts _ rfl) erase clear collapse
    expand c

namespace Table

/-- Cursor, bookmarks and tally aside the two tables are the same. -/
structure SameContents (t t' : Table) : Prop where
  settings : t'.settings = t.settings
  collation : t'.collation = t.collation
  tree : t'.tree = t.tree
  store : t'.store = t.store
  arrivals : t'.arrivals = t.arrivals

theorem SameContents.refl (t : Table) : t.SameContents t := ⟨rfl, rfl, rfl, rfl, rfl⟩

theorem SameContents.entries {t t' : Table} (h : t.SameContents t') : t'.entries = t.entries :=
  congrArg Tree.toList h.tree

variable {t t' : Table} {c : Command} {reply : Reply}

theorem perform_of_ok (h : t.answer c = .ok (reply, t')) : t.perform c = (.ok reply, t') := by
  simp [perform, h]

theorem perform_snd_of_error {fault : Fault} (h : (t.perform c).1 = .error fault) :
    (t.perform c).2 = t := by
  cases ha : t.answer c with
  | ok r =>
    obtain ⟨reply, t'⟩ := r
    rw [perform_of_ok ha] at h
    cases h
  | error fault' => rw [perform_of_error ha]

section

variable {α : Type} {x : Except Fault α} {f : α → Reply × Table}

/-- Where the call behind a command succeeds, the table is what the call makes of it. -/
theorem perform_map_ok {a : α} (h : t.answer c = x.map f) (hx : x = .ok a) (ht : (f a).2 = t') :
    (t.perform c).2 = t' := by
  subst hx
  rw [perform_of_ok h, ht]

theorem perform_map_error {fault : Fault} (h : t.answer c = x.map f) (hx : x = .error fault) :
    (t.perform c).2 = t := by
  subst hx
  rw [perform_of_error h]

/-- A command that succeeds is answered with what the call behind it comes to. -/
theorem exists_of_map_eq_ok {r : Reply × Table} (h : x.map f = .ok r) : ∃ a, x = .ok a ∧ f a = r := by
  cases x with
  | error fault => cases h
  | ok a => exact ⟨a, rfl, Except.ok.inj h⟩

theorem perform_ask {reply : α → Reply} (h : t.answer c = x.map fun a => (reply a, t)) :
    (t.perform c).2 = t := by
  cases hx : x with
  | error fault => exact perform_map_error h hx
  | ok a => exact perform_map_ok h hx rfl

end

/-! ## The editing commands -/

theorem perform_put (t : Table) (key : Key) (columns : SortKey) (hidden : Bool) :
    (key = .reserved ∧ (t.perform (.put key columns hidden)).2 = t) ∨
    (key ≠ .reserved ∧ t.focus? key = none ∧ (t.perform (.put key columns hidden)).2 =
      (t.attach key columns hidden).2.note .added) ∨
    (∃ f, key ≠ .reserved ∧ t.focus? key = some f ∧ t.alike f.entry.columns columns = true ∧
      (t.perform (.put key columns hidden)).2 = t.note .unchanged) ∨
    (∃ f, key ≠ .reserved ∧ t.focus? key = some f ∧ t.alike f.entry.columns columns = false ∧
      (t.perform (.put key columns hidden)).2 =
        (t.resort f key columns hidden).note .modified) := by
  rcases t.put_cases key columns hidden with ⟨hk, he⟩ | ⟨hk, hf, he⟩ | ⟨f, hk, hf, ha, he⟩ |
    ⟨f, hk, hf, ha, he⟩
  · exact .inl ⟨hk, perform_map_error rfl he⟩
  · exact .inr (.inl ⟨hk, hf, perform_map_ok rfl he rfl⟩)
  · exact .inr (.inr (.inl ⟨f, hk, hf, ha, perform_map_ok rfl he rfl⟩))
  · exact .inr (.inr (.inr ⟨f, hk, hf, ha, perform_map_ok rfl he rfl⟩))

/-- The sort key that replacing a column gives a row, if there is such a row and such a column. -/
def recolumned? (t : Table) (key : Key) (index : Nat) (column : Column) : Option (SortKey × Bool) :=
  match t.focus? key with
  | some f =>
    if index < f.entry.columns.length then some (f.entry.columns.set index column, f.entry.hidden)
    else none
  | none => none

theorem recolumned?_of_none {key : Key} (hf : t.focus? key = none) (index : Nat)
    (column : Column) : t.recolumned? key index column = none := by
  rw [recolumned?, hf]

theorem recolumned?_of_some {key : Key} {f : Focus} (hf : t.focus? key = some f) (index : Nat)
    (column : Column) : t.recolumned? key index column =
      if index < f.entry.columns.length then
        some (f.entry.columns.set index column, f.entry.hidden)
      else none := by
  rw [recolumned?, hf]

theorem perform_setColumn (t : Table) (key : Key) (index : Nat) (column : Column) :
    (t.perform (.setColumn key index column)).2 =
      match t.recolumned? key index column with
      | some (columns, hidden) => (t.perform (.put key columns hidden)).2
      | none => t := by
  cases hf : t.focus? key with
  | none =>
    rw [recolumned?_of_none hf]
    exact perform_map_error rfl (setColumn_of_none hf index column)
  | some f =>
    rw [recolumned?_of_some hf]
    by_cases hi : index < f.entry.columns.length
    · rw [if_pos hi]
      have hs := setColumn_of_lt hf hi column
      cases hp : t.put key (f.entry.columns.set index column) f.entry.hidden with
      | error fault =>
        rw [hp] at hs
        exact (perform_map_error rfl hs).trans (perform_map_error rfl hp).symm
      | ok r =>
        rw [hp] at hs
        have hput : (t.perform (.put key (f.entry.columns.set index column) f.entry.hidden)).2 =
            r.2 := perform_map_ok rfl hp rfl
        exact (perform_map_ok rfl hs rfl).trans hput.symm
    · rw [if_neg hi]
      exact perform_map_error rfl (setColumn_of_le hf (Nat.le_of_not_lt hi) column)

theorem cursor_perform_put (t : Table) (key : Key) (columns : SortKey) (hidden : Bool) :
    (t.perform (.put key columns hidden)).2.cursor = t.cursor := by
  rcases t.perform_put key columns hidden with ⟨-, he⟩ | ⟨-, -, he⟩ | ⟨f, -, -, -, he⟩ |
    ⟨f, -, -, -, he⟩
  all_goals exact (congrArg Table.cursor he).trans rfl

theorem cursor_perform_setColumn (t : Table) (key : Key) (index : Nat) (column : Column) :
    (t.perform (.setColumn key index column)).2.cursor = t.cursor := by
  rw [perform_setColumn]
  split
  · exact cursor_perform_put ..
  · rfl

/-- The key, if putting the row would bring a row that is there to a new place. -/
def moved? (t : Table) (key : Key) (columns : SortKey) : Option Key :=
  if key = .reserved then none
  else
    match t.focus? key with
    | some f => if t.alike f.entry.columns columns then none else some key
    | none => none

/-- The row that a command brings to a new place. -/
def resorted? (t : Table) : Command → Option Key
  | .put key columns _ => t.moved? key columns
  | .setColumn key index column =>
    match t.recolumned? key index column with
    | some (columns, _) => t.moved? key columns
    | none => none
  | _ => none

theorem moved?_of_not_alike {key : Key} {f : Focus} {columns : SortKey} (hr : key ≠ .reserved)
    (hf : t.focus? key = some f) (ha : t.alike f.entry.columns columns = false) :
    t.moved? key columns = some key := by
  rw [moved?, if_neg hr, hf]
  simp [ha]

def brought? (t : Table) : Command → Option (Key × SortKey × Bool)
  | .put key columns hidden => some (key, columns, hidden)
  | .setColumn key index column =>
    (t.recolumned? key index column).map fun (columns, hidden) => (key, columns, hidden)
  | _ => none

theorem perform_put_moved (t : Table) (key : Key) (columns : SortKey) (hidden : Bool) :
    (t.moved? key columns = none ∧ ((t.perform (.put key columns hidden)).2 = t ∨
      (t.perform (.put key columns hidden)).2 = t.note .unchanged)) ∨
    (t.moved? key columns = none ∧ t.focus? key = none ∧
      (t.perform (.put key columns hidden)).2 = (t.attach key columns hidden).2.note .added) ∨
    (∃ f, t.moved? key columns = some key ∧ t.focus? key = some f ∧
      (t.perform (.put key columns hidden)).2 =
        (t.resort f key columns hidden).note .modified) := by
  rcases t.perform_put key columns hidden with ⟨hr, he⟩ | ⟨-, hf, he⟩ | ⟨f, -, hf, ha, he⟩ |
    ⟨f, hr, hf, ha, he⟩
  · exact .inl ⟨if_pos hr, .inl he⟩
  · exact .inr (.inl ⟨by simp [moved?, hf], hf, he⟩)
  · exact .inl ⟨by simp [moved?, hf, ha], .inr he⟩
  · exact .inr (.inr ⟨f, moved?_of_not_alike hr hf ha, hf, he⟩)

/-- A row that is put is refused or found alike, or is new, or is brought to a new place. -/
theorem perform_puts (t : Table) (hc : c.puts = true) :
    (t.resorted? c = none ∧ ((t.perform c).2 = t ∨ (t.perform c).2 = t.note .unchanged)) ∨
    (∃ key columns hidden, t.brought? c = some (key, columns, hidden) ∧ t.resorted? c = none ∧
      t.focus? key = none ∧ (t.perform c).2 = (t.attach key columns hidden).2.note .added) ∨
    (∃ f key columns hidden, t.brought? c = some (key, columns, hidden) ∧
      t.resorted? c = some key ∧ t.focus? key = some f ∧
      (t.perform c).2 = (t.resort f key columns hidden).note .modified) := by
  cases c with
  | put key columns hidden =>
    rcases t.perform_put_moved key columns hidden with h | ⟨hm, hf, he⟩ | ⟨f, hm, hf, he⟩
    · exact .inl h
    · exact .inr (.inl ⟨key, columns, hidden, rfl, hm, hf, he⟩)
    · exact .inr (.inr ⟨f, key, columns, hidden, rfl, hm, hf, he⟩)
  | setColumn key index column =>
    rw [perform_setColumn, resorted?, brought?]
    cases hr : t.recolumned? key index column with
    | none => exact .inl ⟨rfl, .inl rfl⟩
    | some r =>
      obtain ⟨columns, hidden⟩ := r
      rcases t.perform_put_moved key columns hidden with h | ⟨hm, hf, he⟩ | ⟨f, hm, hf, he⟩
      · exact .inl h
      · exact .inr (.inl ⟨key, columns, hidden, rfl, hm, hf, he⟩)
      · exact .inr (.inr ⟨f, key, columns, hidden, rfl, hm, hf, he⟩)
  | _ => cases hc

theorem perform_erase (t : Table) (key : Key) :
    (t.focus? key = none ∧ (t.perform (.erase key)).2 = t) ∨
    ∃ f, t.focus? key = some f ∧ (t.perform (.erase key)).2 = (t.detach f).note .deleted := by
  cases hf : t.focus? key with
  | none => exact .inl ⟨rfl, perform_map_error rfl (erase_of_none hf)⟩
  | some f => exact .inr ⟨f, rfl, perform_map_ok rfl (erase_of_some hf) rfl⟩

theorem perform_collapse (t : Table) (key : Key) :
    (t.focus? key = none ∧ (t.perform (.collapse key)).2 = t) ∨
    ∃ f, t.focus? key = some f ∧ (t.perform (.collapse key)).2 =
      (t.collapsed f).note (.hidden (t.members f).1.length) := by
  cases hf : t.focus? key with
  | none => exact .inl ⟨rfl, perform_map_error rfl (collapse_of_none hf)⟩
  | some f =>
    exact .inr ⟨f, rfl, perform_map_ok rfl (collapse_of_some hf) rfl⟩

theorem perform_expand (t : Table) (key : Key) :
    (t.perform (.expand key)).2 = t ∨
    ∃ f n, t.focus? key = some f ∧
      (t.perform (.expand key)).2 = (t.expanded f).note (.unhidden n) := by
  rcases t.expand_cases key with he | ⟨f, keys, n, hf, he⟩
  · exact .inl (perform_map_error rfl he)
  · exact .inr ⟨f, n, hf, perform_map_ok rfl he rfl⟩

/-! ## The other commands -/

theorem goTo_of_none {key : Key} (hf : t.focus? key = none) :
    t.goTo key = .error (.notFound key) := by
  simp only [goTo, lookup_of_none hf]
  rfl

theorem goTo_of_some {key : Key} {f : Focus} (hf : t.focus? key = some f) :
    t.goTo key = .ok { t with cursor := .row f.key } := by
  simp only [goTo, lookup_of_some hf]
  rfl

theorem perform_goTo (t : Table) (key : Key) :
    (t.perform (.goTo key)).2 = t ∨
    ∃ f, t.focus? key = some f ∧ (t.perform (.goTo key)).2 = { t with cursor := .row f.key } := by
  cases hf : t.focus? key with
  | none => exact .inl (perform_map_error rfl (goTo_of_none hf))
  | some f => exact .inr ⟨f, rfl, perform_map_ok rfl (goTo_of_some hf) rfl⟩

theorem perform_seek (t : Table) (origin : Origin) (offset : Int) :
    (t.perform (.seek origin offset)).2 = t ∨
    ∃ p, (t.perform (.seek origin offset)).2 = { t with cursor := p }.note .sought ∧
      (p = .beforeFirst ∧ t.visible = 0 ∨ ∃ rank, p = t.select rank) := by
  rcases t.seek_cases origin offset with ⟨fault, he⟩ | ⟨travel, p, he, hp⟩
  · exact .inl (perform_map_error rfl he)
  · exact .inr ⟨p, perform_map_ok rfl he rfl, hp⟩

theorem perform_read (t : Table) (r : Reading) :
    (t.perform (.read r)).2 = if r.advance then { t with cursor := t.readStop r } else t := rfl

theorem perform_createBookmark (t : Table) :
    (t.perform .createBookmark).2 = t ∨
    (t.perform .createBookmark).2 = ({ t with
      bookmarks := t.bookmarks ++ [⟨⟨t.nextMark⟩, t.cursor, t.currentRank⟩]
      nextMark := t.nextMark + 1 } : Table).note .bookmarked := by
  cases hb : t.createBookmark with
  | error fault => exact .inl (perform_map_error rfl hb)
  | ok r =>
    refine .inr ?_
    refine perform_map_ok rfl hb ?_
    simp only [createBookmark] at hb
    split at hb
    · cases hb
    · cases hb
      rfl

theorem perform_freeBookmark (t : Table) (mark : Mark) :
    (t.perform (.freeBookmark mark)).2 = t ∨
    ∃ freed : Mark, (t.perform (.freeBookmark mark)).2 =
      { t with bookmarks := t.bookmarks.filter (·.mark ≠ freed) } := by
  cases hb : t.bookmark mark with
  | error fault =>
    have he : t.freeBookmark mark = .error fault := by simp only [freeBookmark, hb]; rfl
    exact .inl (perform_map_error rfl he)
  | ok b =>
    have he : t.freeBookmark mark =
        .ok { t with bookmarks := t.bookmarks.filter (·.mark ≠ b.mark) } := by
      simp only [freeBookmark, hb]; rfl
    exact .inr ⟨b.mark, perform_map_ok rfl he rfl⟩

theorem perform_same (t : Table) (hc : c.edits = false) : t.SameContents (t.perform c).2 := by
  cases c with
  | put | erase | setColumn | clear | collapse | expand => cases hc
  | next | prev | lowerBound | find | contains | isEmpty | rowCount =>
    exact ⟨rfl, rfl, rfl, rfl, rfl⟩
  | seek origin offset =>
    rcases t.perform_seek origin offset with h | ⟨p, h, -⟩
    all_goals rw [h]; exact ⟨rfl, rfl, rfl, rfl, rfl⟩
  | goTo key =>
    rcases t.perform_goTo key with h | ⟨f, -, h⟩
    all_goals rw [h]; exact ⟨rfl, rfl, rfl, rfl, rfl⟩
  | read r =>
    rw [perform_read]
    split
    all_goals exact ⟨rfl, rfl, rfl, rfl, rfl⟩
  | createBookmark =>
    rcases t.perform_createBookmark with h | h
    all_goals rw [h]; exact ⟨rfl, rfl, rfl, rfl, rfl⟩
  | freeBookmark mark =>
    rcases t.perform_freeBookmark mark with h | ⟨freed, h⟩
    all_goals rw [h]; exact ⟨rfl, rfl, rfl, rfl, rfl⟩
  | visibleBefore | resolve | family | get | verify => rw [perform_ask rfl]; exact .refl t

/-- No command changes the settings or the collation. -/
theorem fixed_perform (t : Table) (c : Command) :
    (t.perform c).2.settings = t.settings ∧ (t.perform c).2.collation = t.collation := by
  have hput (key : Key) (columns : SortKey) (hidden : Bool) :
      (t.perform (.put key columns hidden)).2.settings = t.settings ∧
        (t.perform (.put key columns hidden)).2.collation = t.collation := by
    rcases t.perform_put key columns hidden with ⟨-, he⟩ | ⟨-, -, he⟩ | ⟨f, -, -, -, he⟩ |
      ⟨f, -, -, -, he⟩
    all_goals rw [he]; exact ⟨rfl, rfl⟩
  cases c using Command.edits_cases with
  | same c hc => exact ⟨(t.perform_same hc).settings, (t.perform_same hc).collation⟩
  | put key columns hidden => exact hput key columns hidden
  | setColumn key index column =>
    rw [perform_setColumn]
    split
    · exact hput key _ _
    · exact ⟨rfl, rfl⟩
  | erase key =>
    rcases t.perform_erase key with ⟨-, he⟩ | ⟨f, -, he⟩
    all_goals rw [he]; exact ⟨rfl, rfl⟩
  | clear => exact ⟨rfl, rfl⟩
  | collapse key =>
    rcases t.perform_collapse key with ⟨-, he⟩ | ⟨f, -, he⟩
    all_goals rw [he]; exact ⟨rfl, rfl⟩
  | expand key =>
    rcases t.perform_expand key with he | ⟨f, n, -, he⟩
    all_goals rw [he]; exact ⟨rfl, rfl⟩

theorem settings_perform (t : Table) (c : Command) : (t.perform c).2.settings = t.settings :=
  (t.fixed_perform c).1

theorem collation_perform (t : Table) (c : Command) : (t.perform c).2.collation = t.collation :=
  (t.fixed_perform c).2

theorem collation_run (t : Table) (commands : List Command) :
    (t.run commands).collation = t.collation := by
  induction commands generalizing t with
  | nil => rfl
  | cons c rest ih => exact (ih _).trans (t.collation_perform c)

theorem isUnder_perform (t : Table) (c : Command) : (t.perform c).2.isUnder = t.isUnder := by
  unfold isUnder
  rw [collation_perform]

end Table

end LiveTable
