import LiveTable.Proofs.Table.Listing
import LiveTable.Proofs.Table.Steering

/-!
# Collapsing a category and expanding it again

Expanding brings back the members of one level, which is that of the first one, whatever was
visible before. So after a collapse and an expansion a member is visible if and only if it has as
many columns as the first member, and no other row has changed (`reopens_of_reachable`). Where all
members are of one level and were visible, the two commands undo each other.
-/

namespace LiveTable

/-- The row, visible if it has as many columns as the width and hidden otherwise. -/
def Entry.shownAt (width : Nat) (a : Entry) : Entry :=
  { a with hidden := a.columns.length ≠ width }

theorem reveal_hide (width : Nat) (a : Entry) : Table.reveal width a.hide = a.shownAt width := by
  rw [Entry.shownAt]
  show (if a.columns.length = width then a.hide.unhide else a.hide) = _
  by_cases h : a.columns.length = width
  · rw [if_pos h, decide_eq_false (not_not_intro h)]
    rfl
  · rw [if_neg h, decide_eq_true h]
    rfl

theorem Entry.shownAt_eq {width : Nat} {a : Entry} (hv : a.hidden = false)
    (hw : a.columns.length = width) : a.shownAt width = a := by
  rw [shownAt, decide_eq_false (not_not_intro hw), ← hv]

namespace Table

/-- The category under a row collapsed and expanded again. -/
def reopen (t : Table) (key : Key) : Except Fault Reply × Table :=
  (t.perform (.collapse key)).2.perform (.expand key)

/-- The members that an expansion brings back. -/
def levelIn (members : List Entry) : List Entry :=
  members.filter (·.columns.length = widthIn members)

variable {t : Table} {xs ys members : List Entry} {e first : Entry}

theorem widthIn_hide (members : List Entry) :
    widthIn (members.map Entry.hide) = widthIn members := by
  cases members <;> rfl

theorem levelIn_hide (members : List Entry) :
    (levelIn (members.map Entry.hide)).map (·.key) = (levelIn members).map (·.key) := by
  rw [levelIn, widthIn_hide, List.filter_map, List.map_map]
  rfl

theorem widthIn_of_head? (h : members.head? = some first) :
    widthIn members = first.columns.length := by
  rw [widthIn, h]
  rfl

theorem Sound.perform_expand_split (h : t.Sound) (he : t.entries = xs ++ e :: ys)
    (hv : e.hidden = false) :
    (t.perform (.expand e.key)).1 = .ok (.keys ((levelIn (t.membersIn e ys)).map (·.key))) ∧
      (t.perform (.expand e.key)).2.entries =
        xs ++ e :: ((t.membersIn e ys).map (reveal (widthIn (t.membersIn e ys))) ++
          t.beyondIn e ys) := by
  obtain ⟨f, hf, hs⟩ := h.focus? he
  have hh : f.entry.hidden = false := hs.entry ▸ hv
  rw [perform_of_ok (c := .expand e.key) (congrArg (Except.map _) (expand_of_some hf hh)),
    members_fst hs]
  exact ⟨rfl, entries_expanded hs⟩

/-- What is hidden is found again: the members are the same after a collapse. -/
theorem Sound.reopen_split (h : t.Sound) (he : t.entries = xs ++ e :: ys)
    (hv : e.hidden = false) :
    (t.reopen e.key).1 = .ok (.keys ((levelIn (t.membersIn e ys)).map (·.key))) ∧
      (t.reopen e.key).2.entries =
        xs ++ e :: ((t.membersIn e ys).map (Entry.shownAt (widthIn (t.membersIn e ys))) ++
          t.beyondIn e ys) := by
  obtain ⟨hm, hb⟩ := membersIn_map Entry.hide_toRow t e ys
  have hsplit := (h.perform (.collapse e.key)).perform_expand_split
    (h.perform_collapse_split he).2.1 hv
  unfold membersIn beyondIn at hm hb hsplit ⊢
  rw [isUnder_perform, hm, hb, levelIn_hide, widthIn_hide, List.map_map] at hsplit
  have hshown (width : Nat) : reveal width ∘ Entry.hide = Entry.shownAt width :=
    funext (reveal_hide width)
  rwa [hshown] at hsplit

/-- What collapsing the category under a header and expanding it again comes to. -/
structure Reopens (t : Table) (header : Entry) (members : List Entry) : Prop where
  collapsed : (t.perform (.collapse header.key)).1 = .ok (.keys (members.map (·.key)))
  /-- Where there are no members both commands answer with none and change no row. -/
  vacant : members = [] → (t.reopen header.key).1 = .ok (.keys []) ∧
    (t.perform (.collapse header.key)).2.entries = t.entries ∧
    (t.reopen header.key).2.entries = t.entries
  /-- The members with as many columns as the first one come back, in table order. -/
  answered (first : Entry) : members.head? = some first → (t.reopen header.key).1 =
    .ok (.keys ((members.filter (·.columns.length = first.columns.length)).map (·.key)))
  /-- These members are the visible ones, and the other rows are as they were. -/
  entries (first : Entry) : members.head? = some first → (t.reopen header.key).2.entries =
    t.entries.map fun a => if a ∈ members then a.shownAt first.columns.length else a
  visible : (t.reopen header.key).2.visible = visibleCount (t.reopen header.key).2.entries
  /-- Where all members are visible and of one level the two commands undo each other. -/
  restored : (∀ a ∈ members, a.hidden = false) →
    (∀ a ∈ members, ∀ b ∈ members, a.columns.length = b.columns.length) →
    (t.reopen header.key).2.entries = t.entries ∧
      (∀ hidden, ((t.reopen header.key).2.allRows hidden).1 = (t.allRows hidden).1) ∧
      (t.reopen header.key).2.visible = t.visible ∧
      (t.reopen header.key).1 = (t.perform (.collapse header.key)).1

theorem length_eq_widthIn
    (hw : ∀ a ∈ members, ∀ b ∈ members, a.columns.length = b.columns.length) {a : Entry}
    (ha : a ∈ members) : a.columns.length = widthIn members := by
  cases members with
  | nil => cases ha
  | cons first rest => exact hw a ha first List.mem_cons_self

theorem reopens_of_reachable (h : t.Reachable) (he : t.entries = xs ++ e :: ys)
    (hv : e.hidden = false) : t.Reopens e (t.membersIn e ys) := by
  have hs := h.sound
  have hs' : (t.reopen e.key).2.Sound := (hs.perform _).perform _
  obtain ⟨hcollapse, hcollapsed, -⟩ := hs.perform_collapse_split he
  obtain ⟨hreply, hentries⟩ := hs.reopen_split he hv
  refine ⟨hcollapse, fun hm => ?_, fun first hf => ?_, fun first hf => ?_, hs'.visible_eq,
    fun hall hw => ?_⟩
  · have hb : t.beyondIn e ys = ys := by
      have hys := t.membersIn_append_beyondIn e ys
      rwa [hm] at hys
    rw [hm, hb] at hcollapsed hentries
    rw [hm] at hreply
    exact ⟨hreply, hcollapsed.trans he.symm, hentries.trans he.symm⟩
  · rw [hreply, levelIn, widthIn_of_head? hf]
  · rw [hentries, hs.map_members he, widthIn_of_head? hf]
  · have hlength {a : Entry} (ha : a ∈ t.membersIn e ys) := length_eq_widthIn hw ha
    have hrows : (t.reopen e.key).2.entries = t.entries := by
      have hid : (t.membersIn e ys).map (Entry.shownAt (widthIn (t.membersIn e ys))) =
          t.membersIn e ys :=
        (List.map_congr_left fun a ha => Entry.shownAt_eq (hall a ha) (hlength ha)).trans
          (List.map_id _)
      rw [hentries, hid, t.membersIn_append_beyondIn, he]
    have hlevel : levelIn (t.membersIn e ys) = t.membersIn e ys :=
      List.filter_eq_self.2 fun a ha => decide_eq_true (hlength ha)
    refine ⟨hrows, fun hidden => ?_, ?_, ?_⟩
    · rw [hs'.allRows_fst, hs.allRows_fst, hrows]
    · rw [hs'.visible_eq, hs.visible_eq, hrows]
    · rw [hreply, hcollapse, hlevel]

/-- A category with a category inside, and a row after both. -/
def nested : Table :=
  (empty {} .bytewise).run [.put ⟨1, 1⟩ [.binary [1]] false,
    .put ⟨1, 2⟩ [.binary [1], .binary [1]] false,
    .put ⟨1, 3⟩ [.binary [1], .binary [1], .binary [1]] false,
    .put ⟨1, 4⟩ [.binary [1], .binary [2]] true, .put ⟨1, 5⟩ [.binary [2]] false]

/-- The inner category stays hidden when the outer one is expanded. -/
theorem reopens_of_reachable_nested :
    nested.Reachable ∧ (nested.reopen ⟨1, 1⟩).1 = .ok (.keys [⟨1, 2⟩, ⟨1, 4⟩]) ∧
      (nested.reopen ⟨1, 1⟩).2.entries.map (fun a => (a.key, a.hidden)) =
        [(⟨1, 1⟩, false), (⟨1, 2⟩, false), (⟨1, 3⟩, true), (⟨1, 4⟩, false), (⟨1, 5⟩, false)] := by
  have ht : nested.Reachable := ⟨{}, Collation.bytewise, _, rfl, rfl⟩
  have hrows : nested.entries = [] ++ ⟨⟨⟨1, 1⟩, [.binary [1]], 0⟩, false⟩ ::
      [⟨⟨⟨1, 2⟩, [.binary [1], .binary [1]], 1⟩, false⟩,
        ⟨⟨⟨1, 3⟩, [.binary [1], .binary [1], .binary [1]], 2⟩, false⟩,
        ⟨⟨⟨1, 4⟩, [.binary [1], .binary [2]], 3⟩, true⟩, ⟨⟨⟨1, 5⟩, [.binary [2]], 4⟩, false⟩] := by
    cbv
  have hreopens := reopens_of_reachable ht hrows rfl
  have hentries := hreopens.entries _ rfl
  rw [hrows] at hentries
  exact ⟨ht, hreopens.answered _ rfl, (congrArg _ hentries).trans rfl⟩

end Table

end LiveTable
