import LiveTable.Proofs.Table.Reachable
import Mathlib.Data.List.Nodup

/-!
# The life of a bookmark

A command drops the bookmarks that it frees and those on a row that it takes from its place, and
all of them if it clears the table (`drops`); it keeps the others as they were saved, and makes one
more at most (`Sound.bookmarks_eq`). Numbers only grow, so that no two bookmarks ever have the same
one (`Numbered`) and a number whose bookmark has been dropped leads nowhere for ever after
(`Spent`). A row that no command takes from its place stays in its slot, whatever becomes of the
slots of other rows (`Holds`).
-/

namespace LiveTable

def Position.key? : Position → Option Key
  | .row key => some key
  | _ => none

namespace Table

/-! ## What a command does to bookmarks -/

/-- The command takes the row with the key out of the table or brings it to a new place. -/
def uproots (t : Table) (c : Command) (key : Key) : Bool :=
  c = .clear || c = .erase key || t.resorted? c = some key

/-- The command drops the bookmark. -/
def drops (t : Table) (c : Command) (b : Bookmark) : Bool :=
  c = .clear || c = .freeBookmark b.mark || b.position.key?.any (t.uproots c)

def made (t : Table) (c : Command) : List Bookmark :=
  match c, t.createBookmark with
  | .createBookmark, .ok (mark, _) => [⟨mark, t.cursor, t.currentRank⟩]
  | _, _ => []

variable {t : Table} {c : Command} {b : Bookmark} {mark : Mark} {key : Key}

theorem uproots_eq_false_iff :
    t.uproots c key = false ↔ c ≠ .clear ∧ c ≠ .erase key ∧ t.resorted? c ≠ some key := by
  simp [uproots, and_assoc]

theorem drops_eq_false_iff :
    t.drops c b = false ↔ c ≠ .clear ∧ c ≠ .freeBookmark b.mark ∧
      ∀ key, b.position = .row key → t.uproots c key = false := by
  cases hp : b.position <;> simp [drops, Position.key?, hp, and_assoc]

/-- Where no row is taken from its place and no bookmark is freed, all bookmarks are kept. -/
theorem filter_drops_of_none (hc : c ≠ .clear) (hf : ∀ mark, c ≠ .freeBookmark mark)
    (hu : ∀ key, t.uproots c key = false) : t.bookmarks.filter (!t.drops c ·) = t.bookmarks := by
  apply List.filter_eq_self.2
  intro b _
  rw [drops_eq_false_iff.2 ⟨hc, hf b.mark, fun key _ => hu key⟩]
  rfl

/-- Where one row is taken from its place, the bookmarks on other rows are kept. -/
theorem filter_drops_of_one (hc : c ≠ .clear) (hf : ∀ mark, c ≠ .freeBookmark mark)
    (hu : ∀ other, t.uproots c other = true ↔ other = key) :
    t.bookmarks.filter (!t.drops c ·) = t.bookmarks.filter (·.position ≠ .row key) := by
  apply List.filter_congr
  intro b _
  have hd (other : Key) : t.uproots c other = decide (other = key) := by
    rw [Bool.eq_iff_iff, hu, decide_eq_true_iff]
  cases hp : b.position <;> simp [drops, Position.key?, hp, hc, hf, hd]

theorem filter_freeBookmark (t : Table) (mark : Mark) :
    t.bookmarks.filter (!t.drops (.freeBookmark mark) ·) = t.bookmarks.filter (·.mark ≠ mark) := by
  apply List.filter_congr
  intro b _
  have hu (key : Key) : t.uproots (.freeBookmark mark) key = false := by simp [uproots, resorted?]
  cases hp : b.position <;> simp [drops, Position.key?, hp, hu, eq_comm]

/-! ## Numbers -/

theorem mark_of_bookmark (h : t.bookmark mark = .ok b) : b.mark = mark ∧ b ∈ t.bookmarks := by
  unfold bookmark at h
  split at h
  · rename_i b' hb
    cases h
    exact ⟨by simpa using List.find?_some hb, List.mem_of_find?_eq_some hb⟩
  · cases h

theorem bookmark_eq_error (h : ∀ b ∈ t.bookmarks, b.mark ≠ mark) :
    t.bookmark mark = .error (.invalidBookmark mark) := by
  have hn : t.bookmarks.find? (·.mark = mark) = none := by
    rw [List.find?_eq_none]
    intro b hb
    simpa using h b hb
  rw [bookmark, hn]

theorem ne_of_bookmark_error {fault : Fault} (h : t.bookmark mark = .error fault) :
    ∀ b ∈ t.bookmarks, b.mark ≠ mark := by
  unfold bookmark at h
  split at h
  · cases h
  · rename_i hn
    intro b hb
    simpa using List.find?_eq_none.1 hn b hb

theorem bookmarks_perform_freeBookmark (t : Table) (mark : Mark) :
    (t.perform (.freeBookmark mark)).2.bookmarks = t.bookmarks.filter (·.mark ≠ mark) := by
  cases hb : t.bookmark mark with
  | error fault =>
    have he : t.freeBookmark mark = .error fault := by simp only [freeBookmark, hb]; rfl
    rw [perform_map_error (c := .freeBookmark mark) rfl he]
    exact (List.filter_eq_self.2 fun b hm => decide_eq_true (ne_of_bookmark_error hb b hm)).symm
  | ok b =>
    have he : t.freeBookmark mark =
        .ok { t with bookmarks := t.bookmarks.filter (·.mark ≠ b.mark) } := by
      simp only [freeBookmark, hb]; rfl
    rw [perform_map_ok (c := .freeBookmark mark) rfl he rfl, (mark_of_bookmark hb).1]

/-- A bookmark is refused, or saves the cursor and its rank under the next number. -/
theorem createBookmark_cases (t : Table) :
    (∃ fault, t.createBookmark = .error fault) ∨
    t.nextMark ≠ lastMark ∧ t.createBookmark = .ok (⟨t.nextMark⟩, ({ t with
      bookmarks := t.bookmarks ++ [⟨⟨t.nextMark⟩, t.cursor, t.currentRank⟩]
      nextMark := t.nextMark + 1 } : Table).note .bookmarked) := by
  by_cases hl : t.settings.bookmarkLimit ≤ t.bookmarks.length ∨ t.nextMark = lastMark
  · exact .inl ⟨_, if_pos hl⟩
  · exact .inr ⟨fun he => hl (.inr he), if_neg hl⟩

theorem made_of_ne (hc : c ≠ .createBookmark) : t.made c = [] := by
  unfold made
  split
  · exact absurd rfl hc
  · trivial

theorem perform_moves (t : Table) (hc : c.edits = false) (hb : c ≠ .createBookmark)
    (hf : ∀ mark, c ≠ .freeBookmark mark) :
    ∃ p tally, (t.perform c).2 = { t with cursor := p, tally := tally } := by
  cases c with
  | put | erase | setColumn | clear | collapse | expand => cases hc
  | createBookmark => exact absurd rfl hb
  | freeBookmark mark => exact absurd rfl (hf mark)
  | seek origin offset =>
    rcases t.perform_seek origin offset with he | ⟨p, he, -⟩
    all_goals exact ⟨_, _, he⟩
  | goTo key =>
    rcases t.perform_goTo key with he | ⟨f, -, he⟩
    all_goals exact ⟨_, _, he⟩
  | read r =>
    rw [perform_read]
    split
    all_goals exact ⟨_, _, rfl⟩
  | next | prev | lowerBound | find | contains | isEmpty | rowCount => exact ⟨_, _, rfl⟩
  | visibleBefore | resolve | family | get | verify => exact ⟨_, _, perform_ask rfl⟩

theorem uproots_of_not_edits (hc : c.edits = false) : t.uproots c key = false := by
  cases c with
  | put | erase | setColumn | clear | collapse | expand => cases hc
  | _ => simp [uproots, resorted?]

theorem uproots_of_puts (hc : c.puts = true) :
    t.uproots c key = decide (t.resorted? c = some key) := by
  cases c with
  | put | setColumn => simp [uproots]
  | _ => cases hc

theorem bookmarks_perform_createBookmark (t : Table) :
    (t.perform .createBookmark).2.bookmarks = t.bookmarks ++ t.made .createBookmark := by
  rcases t.createBookmark_cases with ⟨fault, he⟩ | ⟨-, he⟩
  · rw [perform_map_error (c := .createBookmark) rfl he]
    simp only [made, he, List.append_nil]
  · rw [perform_map_ok (c := .createBookmark) rfl he rfl]
    simp only [made, he]
    rfl

/-- Only a row that is brought to a new place loses its bookmarks when a row is put. -/
theorem Sound.bookmarks_perform_puts (h : t.Sound) (hc : c.puts = true) :
    (t.perform c).2.bookmarks = t.bookmarks.filter (!t.drops c ·) := by
  have hclear : c ≠ .clear := fun he => by cases he ▸ hc
  have hfree (mark : Mark) : c ≠ .freeBookmark mark := fun he => by cases he ▸ hc
  have hstay (hr : t.resorted? c = none) :
      t.bookmarks.filter (!t.drops c ·) = t.bookmarks :=
    filter_drops_of_none hclear hfree fun key => by rw [uproots_of_puts hc, hr]; rfl
  rcases t.perform_puts hc with ⟨hr, he | he⟩ | ⟨key, columns, hidden, -, hr, -, he⟩ |
    ⟨f, key, columns, hidden, -, hr, hf, he⟩
  · rw [hstay hr, he]
  · rw [hstay hr, he]
    rfl
  · rw [hstay hr, he]
    rfl
  · obtain ⟨hs, rfl⟩ := h.splits_of_focus? hf
    have hu (other : Key) : t.uproots c other = true ↔ other = f.key := by
      rw [uproots_of_puts hc, hr, decide_eq_true_iff, Option.some_inj, eq_comm]
    rw [filter_drops_of_one hclear hfree hu, he]
    exact bookmarks_detach hs

theorem Sound.bookmarks_perform_erase (h : t.Sound) (key : Key) :
    (t.perform (.erase key)).2.bookmarks = t.bookmarks.filter (!t.drops (.erase key) ·) := by
  have hu (other : Key) : t.uproots (.erase key) other = true ↔ other = key := by
    simp [uproots, resorted?, eq_comm]
  rw [filter_drops_of_one (by simp) (by simp) hu]
  rcases t.perform_erase key with ⟨hf, he⟩ | ⟨f, hf, he⟩
  · -- no bookmark is on a row that is not there
    rw [he, eq_comm, List.filter_eq_self]
    intro b hm
    refine decide_eq_true fun hp => h.focus?_eq_none_iff.1 hf ?_
    have hw := h.bookmarks b hm
    rwa [hp] at hw
  · rw [he]
    obtain ⟨hs, rfl⟩ := h.splits_of_focus? hf
    exact bookmarks_detach hs

/-- A command keeps the bookmarks that it does not drop, as they are, and makes one more at most. -/
theorem Sound.bookmarks_eq (h : t.Sound) (c : Command) :
    (t.perform c).2.bookmarks = t.bookmarks.filter (!t.drops c ·) ++ t.made c := by
  by_cases hb : c = .createBookmark
  · subst hb
    rw [filter_drops_of_none (by simp) (by simp) fun key => uproots_of_not_edits rfl]
    exact t.bookmarks_perform_createBookmark
  rw [made_of_ne hb, List.append_nil]
  cases c using Command.puts_cases with
  | same c hc =>
    by_cases hf : ∃ mark, c = .freeBookmark mark
    · obtain ⟨mark, rfl⟩ := hf
      rw [filter_freeBookmark, bookmarks_perform_freeBookmark]
    · rw [not_exists] at hf
      obtain ⟨p, tally, he⟩ := t.perform_moves hc hb hf
      rw [he, filter_drops_of_none (fun he => by cases he ▸ hc) hf
        fun key => uproots_of_not_edits hc]
  | puts c hc => exact h.bookmarks_perform_puts hc
  | erase key => exact h.bookmarks_perform_erase key
  | clear =>
    symm
    rw [List.filter_eq_nil_iff.2 fun b _ => by simp [drops]]
    rfl
  | collapse key =>
    rw [filter_drops_of_none (by simp) (by simp) fun key => by simp [uproots, resorted?]]
    rcases t.perform_collapse key with ⟨-, he⟩ | ⟨f, -, he⟩
    all_goals rw [he]
    rfl
  | expand key =>
    rw [filter_drops_of_none (by simp) (by simp) fun key => by simp [uproots, resorted?]]
    rcases t.perform_expand key with he | ⟨f, n, -, he⟩
    all_goals rw [he]
    rfl

theorem Sound.mem_bookmarks_perform (h : t.Sound) (hb : b ∈ t.bookmarks)
    (hd : t.drops c b = false) : b ∈ (t.perform c).2.bookmarks := by
  rw [h.bookmarks_eq, List.mem_append, List.mem_filter]
  exact .inl ⟨hb, by rw [hd]; rfl⟩

/-! ## Numbers are not given twice -/

theorem nextMark_perform_of_ne (hc : c ≠ .createBookmark) :
    (t.perform c).2.nextMark = t.nextMark := by
  cases c using Command.puts_cases with
  | same c he =>
    by_cases hf : ∃ mark, c = .freeBookmark mark
    · obtain ⟨mark, rfl⟩ := hf
      rcases t.perform_freeBookmark mark with he | ⟨freed, he⟩
      all_goals exact (congrArg Table.nextMark he).trans rfl
    · obtain ⟨p, tally, he⟩ := t.perform_moves he hc (not_exists.1 hf)
      exact (congrArg Table.nextMark he).trans rfl
  | puts c hp =>
    rcases t.perform_puts hp with ⟨-, he | he⟩ | ⟨key, columns, hidden, -, -, -, he⟩ |
      ⟨f, key, columns, hidden, -, -, -, he⟩
    all_goals exact (congrArg Table.nextMark he).trans rfl
  | erase key =>
    rcases t.perform_erase key with ⟨-, he⟩ | ⟨f, -, he⟩
    all_goals exact (congrArg Table.nextMark he).trans rfl
  | clear => rfl
  | collapse key =>
    rcases t.perform_collapse key with ⟨-, he⟩ | ⟨f, -, he⟩
    all_goals exact (congrArg Table.nextMark he).trans rfl
  | expand key =>
    rcases t.perform_expand key with he | ⟨f, n, -, he⟩
    all_goals exact (congrArg Table.nextMark he).trans rfl

theorem toNat_nextMark_succ (h : t.nextMark ≠ lastMark) :
    (t.nextMark + 1).toNat = t.nextMark.toNat + 1 := by
  have hlt : t.nextMark.toNat ≠ 0xffffffff := fun he => h (UInt32.toNat_inj.1 he)
  have := t.nextMark.toNat_lt
  rw [UInt32.toNat_add]
  simp only [UInt32.reduceToNat]
  omega

theorem made_cases (t : Table) (c : Command) :
    (t.made c = [] ∧ (t.perform c).2.nextMark.toNat = t.nextMark.toNat) ∨
    (t.made c = [⟨⟨t.nextMark⟩, t.cursor, t.currentRank⟩] ∧
      (t.perform c).2.nextMark.toNat = t.nextMark.toNat + 1) := by
  by_cases hc : c = .createBookmark
  · subst hc
    rcases t.createBookmark_cases with ⟨fault, he⟩ | ⟨hn, he⟩
    · refine .inl ⟨by simp only [made, he], ?_⟩
      rw [perform_map_error (c := .createBookmark) rfl he]
    · refine .inr ⟨by simp only [made, he], ?_⟩
      rw [perform_map_ok (c := .createBookmark) rfl he rfl]
      exact toNat_nextMark_succ hn
  · exact .inl ⟨made_of_ne hc, congrArg UInt32.toNat (nextMark_perform_of_ne hc)⟩

/-- No two bookmarks have the same number, and the next number is above all of them. -/
structure Numbered (t : Table) : Prop where
  distinct : (t.bookmarks.map (·.mark)).Nodup
  below : ∀ b ∈ t.bookmarks, b.mark.number.toNat < t.nextMark.toNat

/-- The number was given to a bookmark that is no longer there. -/
structure Spent (t : Table) (mark : Mark) : Prop where
  absent : ∀ b ∈ t.bookmarks, b.mark ≠ mark
  below : mark.number.toNat < t.nextMark.toNat

theorem numbered_empty (settings : Settings) (collation : Collation) :
    (empty settings collation).Numbered := ⟨List.nodup_nil, fun b hb => by cases hb⟩

theorem Numbered.perform (h : t.Numbered) (hs : t.Sound) (c : Command) :
    (t.perform c).2.Numbered := by
  have hkept : (t.bookmarks.filter (!t.drops c ·)).Sublist t.bookmarks := List.filter_sublist
  have hbelow : ∀ b ∈ t.bookmarks.filter (!t.drops c ·), b.mark.number.toNat < t.nextMark.toNat :=
    fun b hb => h.below b (hkept.subset hb)
  rcases t.made_cases c with ⟨hm, hn⟩ | ⟨hm, hn⟩
  · constructor
    · rw [hs.bookmarks_eq, hm, List.append_nil]
      exact h.distinct.sublist (hkept.map _)
    · rw [hs.bookmarks_eq, hm, hn, List.append_nil]
      exact hbelow
  · constructor
    · rw [hs.bookmarks_eq, hm, List.map_append, List.nodup_append]
      refine ⟨h.distinct.sublist (hkept.map _), List.nodup_singleton _, fun a ha b hb hab => ?_⟩
      -- the new number is the next one, and all that were kept lie below it
      obtain ⟨b', hb', rfl⟩ := List.mem_map.1 ha
      have hlt := hbelow b' hb'
      rw [hab, List.mem_singleton.1 hb] at hlt
      exact Nat.lt_irrefl _ hlt
    · intro b hb
      rw [hn]
      rw [hs.bookmarks_eq, hm, List.mem_append, List.mem_singleton] at hb
      rcases hb with hb | rfl
      · exact Nat.lt_succ_of_lt (hbelow b hb)
      · exact Nat.lt_succ_self _

theorem Numbered.run (h : t.Numbered) (hs : t.Sound) (commands : List Command) :
    (t.run commands).Numbered := by
  induction commands generalizing t with
  | nil => exact h
  | cons c rest ih => exact ih (h.perform hs c) (hs.perform c)

theorem Reachable.numbered (h : t.Reachable) : t.Numbered := by
  obtain ⟨settings, collation, commands, -, rfl⟩ := h
  exact (numbered_empty settings collation).run (sound_empty settings collation) commands

/-- A new bookmark has another number than any that was given before. -/
theorem Sound.spent_perform (h : t.Sound)
    (hk : ∀ b ∈ t.bookmarks, t.drops c b = false → b.mark ≠ mark)
    (hlt : mark.number.toNat < t.nextMark.toNat) : (t.perform c).2.Spent mark := by
  have hkept : ∀ b ∈ t.bookmarks.filter (!t.drops c ·), b.mark ≠ mark := by
    intro b hb
    obtain ⟨hm, hd⟩ := List.mem_filter.1 hb
    exact hk b hm (by simpa using hd)
  rcases t.made_cases c with ⟨hm, hn⟩ | ⟨hm, hn⟩
  · refine ⟨?_, by omega⟩
    rw [h.bookmarks_eq, hm, List.append_nil]
    exact hkept
  · refine ⟨fun b hb => ?_, by omega⟩
    rw [h.bookmarks_eq, hm, List.mem_append, List.mem_singleton] at hb
    rcases hb with hb | rfl
    · exact hkept b hb
    · rintro rfl
      exact Nat.lt_irrefl _ hlt

theorem Spent.perform (h : t.Spent mark) (hs : t.Sound) (c : Command) :
    (t.perform c).2.Spent mark :=
  hs.spent_perform (fun b hb _ => h.absent b hb) h.below

theorem Spent.run (h : t.Spent mark) (hs : t.Sound) (commands : List Command) :
    (t.run commands).Spent mark := by
  induction commands generalizing t with
  | nil => exact h
  | cons c rest ih => exact ih (h.perform hs c) (hs.perform c)

/-- A bookmark that is dropped leaves its number spent. -/
theorem Numbered.spent_perform (h : t.Numbered) (hs : t.Sound) (hb : b ∈ t.bookmarks)
    (hd : t.drops c b = true) : (t.perform c).2.Spent b.mark := by
  refine hs.spent_perform (fun a ha hk hab => ?_) (h.below b hb)
  rw [List.inj_on_of_nodup_map h.distinct ha hb hab, hd] at hk
  cases hk

/-! ## Runs -/

/-- None of the commands drops the bookmark. -/
def keeps (t : Table) (b : Bookmark) : List Command → Bool
  | [] => true
  | c :: rest => !t.drops c b && (t.perform c).2.keeps b rest

theorem keeps_cons {rest : List Command} :
    t.keeps b (c :: rest) = true ↔ t.drops c b = false ∧ (t.perform c).2.keeps b rest = true := by
  simp [keeps]

theorem Sound.mem_bookmarks_run (h : t.Sound) (hb : b ∈ t.bookmarks) {commands : List Command}
    (hk : t.keeps b commands = true) : b ∈ (t.run commands).bookmarks := by
  induction commands generalizing t with
  | nil => exact hb
  | cons c rest ih =>
    obtain ⟨hd, hk⟩ := keeps_cons.1 hk
    exact ih (h.perform c) (h.mem_bookmarks_perform hb hd) hk

theorem Numbered.spent_run (h : t.Numbered) (hs : t.Sound) (hb : b ∈ t.bookmarks)
    {commands : List Command} (hk : t.keeps b commands = false) :
    (t.run commands).Spent b.mark := by
  induction commands generalizing t with
  | nil => cases hk
  | cons c rest ih =>
    cases hd : t.drops c b with
    | true => exact (h.spent_perform hs hb hd).run (hs.perform c) rest
    | false =>
      rw [keeps, hd] at hk
      exact ih (h.perform hs c) (hs.perform c) (hs.mem_bookmarks_perform hb hd) hk

theorem Numbered.bookmark_of_mem (h : t.Numbered) (hb : b ∈ t.bookmarks) :
    t.bookmark b.mark = .ok b := by
  cases hf : t.bookmark b.mark with
  | error fault => exact absurd rfl (ne_of_bookmark_error hf b hb)
  | ok b' =>
    obtain ⟨hm, hb'⟩ := mark_of_bookmark hf
    rw [List.inj_on_of_nodup_map h.distinct hb' hb hm]

/-! ## Rows and their slots -/

/-- The row is in the table, in the slot. -/
structure Holds (t : Table) (slot : Nat) (row : Row) : Prop where
  slot : t.store.index[row.key]? = some slot
  row : row ∈ t.entries.map (·.toRow)

section

variable {slot : Nat} {row : Row}

theorem Holds.hasKey (h : t.Holds slot row) : HasKey t.entries row.key := by
  obtain ⟨e, he, hr⟩ := List.mem_map.1 h.row
  exact ⟨e, he, congrArg Row.key hr⟩

theorem Holds.attach (h : t.Holds slot row) (hk : row.key ≠ key) (columns : SortKey)
    (hidden : Bool) : (t.attach key columns hidden).2.Holds slot row where
  slot := (t.store.getElem?_index_insert hk).trans h.slot
  row := List.map_subset _ (subset_entries_attach key columns hidden) h.row

theorem Holds.detach (h : t.Holds slot row) {f : Focus} {xs ys : List Entry} {e : Entry}
    (hs : f.Splits t.tree xs e ys) (hk : row.key ≠ e.key) : (t.detach f).Holds slot row where
  slot := (t.store.getElem?_index_erase (hs.key_eq ▸ hk)).trans h.slot
  row := by
    obtain ⟨a, ha, hr⟩ := List.mem_map.1 h.row
    rw [entries_of_splits hs] at ha
    rw [entries_detach hs]
    rcases mem_middle.1 ha with rfl | ha
    · exact absurd (congrArg Row.key hr).symm hk
    · exact List.mem_map.2 ⟨a, ha, hr⟩

theorem Holds.perform (h : t.Holds slot row) (hs : t.Sound) (hu : t.uproots c row.key = false) :
    (t.perform c).2.Holds slot row := by
  obtain ⟨hclear, herase, hresort⟩ := uproots_eq_false_iff.1 hu
  cases c using Command.puts_cases with
  | same c hc =>
    have hsame := t.perform_same hc
    exact ⟨hsame.store ▸ h.slot, hsame.entries ▸ h.row⟩
  | puts c hc =>
    rcases t.perform_puts hc with ⟨-, he | he⟩ | ⟨key, columns, hidden, -, -, hf, he⟩ |
      ⟨f, key, columns, hidden, -, hr, hf, he⟩
    all_goals rw [he]
    · exact h
    · exact ⟨h.slot, h.row⟩
    · have hk : row.key ≠ key := fun hk => hs.focus?_eq_none_iff.1 hf (hk ▸ h.hasKey)
      exact ⟨(h.attach hk columns hidden).slot, (h.attach hk columns hidden).row⟩
    · obtain ⟨hsp, rfl⟩ := hs.splits_of_focus? hf
      have hk : row.key ≠ f.key := fun hk => hresort (hk ▸ hr)
      have hmoved := (h.detach hsp hk).attach hk columns hidden
      exact ⟨hmoved.slot, hmoved.row⟩
  | erase key =>
    rcases t.perform_erase key with ⟨-, he⟩ | ⟨f, hf, he⟩
    all_goals rw [he]
    · exact h
    · obtain ⟨hsp, rfl⟩ := hs.splits_of_focus? hf
      have hleft := h.detach hsp fun hk => herase (congrArg Command.erase hk.symm)
      exact ⟨hleft.slot, hleft.row⟩
  | clear => exact absurd rfl hclear
  | collapse key =>
    rcases t.perform_collapse key with ⟨-, he⟩ | ⟨f, hf, he⟩
    all_goals rw [he]
    · exact h
    · exact ⟨h.slot, (sameRows_collapsed (hs.splits_of_focus? hf).1).symm ▸ h.row⟩
  | expand key =>
    rcases t.perform_expand key with he | ⟨f, n, hf, he⟩
    all_goals rw [he]
    · exact h
    · exact ⟨h.slot, (sameRows_expanded (hs.splits_of_focus? hf).1).symm ▸ h.row⟩

/-- The row that a bookmark is on stays in its slot for as long as the bookmark is kept. -/
theorem Holds.run (h : t.Holds slot row) (hs : t.Sound) (hp : b.position = .row row.key)
    {commands : List Command} (hk : t.keeps b commands = true) :
    (t.run commands).Holds slot row := by
  induction commands generalizing t with
  | nil => exact h
  | cons c rest ih =>
    obtain ⟨hd, hk⟩ := keeps_cons.1 hk
    exact ih (h.perform hs ((drops_eq_false_iff.1 hd).2.2 row.key hp)) (hs.perform c) hk

end

end Table

end LiveTable
