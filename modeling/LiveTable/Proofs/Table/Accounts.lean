import LiveTable.Proofs.Table.InPlace
import LiveTable.Proofs.Table.Mute
import LiveTable.Proofs.Tally

/-!
# The tally balances

A caller who adds up the answers of a run (`turnover`) comes to what the tally of the table shows:
every row that was added has been deleted, was dropped by a clear or is still there, every row that
was put is counted once, and what is hidden, shown, sought and saved is counted as often as it was
answered (`Accounts`). A command is accounted for by the events that it notes (`Sound.accounts`),
and a run by the events of its commands one after the other (`Sound.accounts_run`).
-/

namespace LiveTable

/-- What a caller can add up from the answers of some commands. -/
structure Turnover where
  /-- How many rows were put and how many columns replaced. -/
  placed : Nat := 0
  /-- How many rows were dropped by clears. -/
  cleared : Nat := 0
  /-- How many keys collapses have answered with. -/
  hidden : Nat := 0
  /-- How many keys expansions have answered with. -/
  unhidden : Nat := 0
  sought : Nat := 0
  bookmarked : Nat := 0

namespace Turnover

def add (u v : Turnover) : Turnover where
  placed := u.placed + v.placed
  cleared := u.cleared + v.cleared
  hidden := u.hidden + v.hidden
  unhidden := u.unhidden + v.unhidden
  sought := u.sought + v.sought
  bookmarked := u.bookmarked + v.bookmarked

/-- Nothing was counted so often that a counter of 64 bits would come round. -/
structure Fits (u : Turnover) : Prop where
  placed : u.placed < 2 ^ 64
  hidden : u.hidden < 2 ^ 64
  unhidden : u.unhidden < 2 ^ 64
  sought : u.sought < 2 ^ 64
  bookmarked : u.bookmarked < 2 ^ 64

end Turnover

namespace Table

open Tally (Event Counter amounts)

/-- What a command contributes. -/
def turnoverOf (t : Table) (c : Command) : Turnover :=
  match c, (t.perform c).1 with
  | .put .., .ok _ => { placed := 1 }
  | .setColumn .., .ok _ => { placed := 1 }
  | .clear, _ => { cleared := t.size }
  | .collapse _, .ok (.keys keys) => { hidden := keys.length }
  | .expand _, .ok (.keys keys) => { unhidden := keys.length }
  | .seek .., .ok _ => { sought := 1 }
  | .createBookmark, .ok _ => { bookmarked := 1 }
  | _, _ => {}

def turnover (t : Table) : List Command → Turnover
  | [] => {}
  | c :: rest => (t.turnoverOf c).add ((t.perform c).2.turnover rest)

/-- The events account for the way from one table to another with the given turnover. -/
structure Accounts (t t' : Table) (events : List Event) (u : Turnover) : Prop where
  tally : t'.tally = t.tally.noteAll events
  rows : amounts events .added + t.size = amounts events .deleted + t'.size + u.cleared
  placed : amounts events .added + amounts events .modified + amounts events .unchanged = u.placed
  hidden : amounts events .hidden = u.hidden
  unhidden : amounts events .unhidden = u.unhidden
  sought : amounts events .seeks = u.sought
  bookmarked : amounts events .bookmarks = u.bookmarked

variable {t t' t'' : Table} {events events' : List Event} {u u' : Turnover}

namespace Accounts

theorem of_nothing (ht : t'.tally = t.tally) (hs : t'.size = t.size) : t.Accounts t' [] {} :=
  ⟨ht, by simp [hs], rfl, rfl, rfl, rfl, rfl⟩

theorem append (h : t.Accounts t' events u) (h' : t'.Accounts t'' events' u') :
    t.Accounts t'' (events ++ events') (u.add u') where
  tally := by rw [h'.tally, h.tally, Tally.noteAll_append]
  rows := by
    have := h.rows
    have := h'.rows
    simp only [Tally.amounts_append, Turnover.add]
    omega
  placed := by
    simp only [Tally.amounts_append, Turnover.add, ← h.placed, ← h'.placed]
    omega
  hidden := by rw [Tally.amounts_append, h.hidden, h'.hidden, Turnover.add]
  unhidden := by rw [Tally.amounts_append, h.unhidden, h'.unhidden, Turnover.add]
  sought := by rw [Tally.amounts_append, h.sought, h'.sought, Turnover.add]
  bookmarked := by rw [Tally.amounts_append, h.bookmarked, h'.bookmarked, Turnover.add]

end Accounts

/-! ## One command -/

theorem turnoverOf_of_error {c : Command} {fault : Fault} (h : t.answer c = .error fault) :
    t.turnoverOf c = {} := by
  unfold turnoverOf
  rw [perform_of_error h]
  cases c with
  | clear => cases h
  | _ => rfl

theorem accounts_of_error {c : Command} {fault : Fault} (h : t.answer c = .error fault) :
    t.Accounts (t.perform c).2 [] (t.turnoverOf c) := by
  rw [turnoverOf_of_error h, perform_of_error h]
  exact .of_nothing rfl rfl

theorem Sound.accounts_put (h : t.Sound) {key : Key} {columns : SortKey} {hidden : Bool}
    {p : Placement} (hp : t.put key columns hidden = .ok (p, t')) :
    ∃ events, t.Accounts t' events { placed := 1 } := by
  rcases t.put_cases key columns hidden with ⟨-, he⟩ | ⟨-, hf, he⟩ | ⟨f, -, hf, -, he⟩ |
    ⟨f, -, hf, -, he⟩
  all_goals
    rw [he] at hp
    cases hp
  · have hsize : (t.attach key columns hidden).2.size = t.size + 1 := h.size_attach ..
    refine ⟨[.rotated _, .added], rfl, ?_, rfl, rfl, rfl, rfl, rfl⟩
    show 1 + t.size = 0 + (t.attach key columns hidden).2.size + 0
    omega
  · exact ⟨[.unchanged], rfl, rfl, rfl, rfl, rfl, rfl, rfl⟩
  · -- the row is taken out and brought in again, and neither is counted
    obtain ⟨hs, -⟩ := h.splits_of_focus? hf
    have hout := h.size_detach hs
    have hin : ((t.detach f).attach key columns hidden).2.size = (t.detach f).size + 1 :=
      (h.detach hs).size_attach ..
    refine ⟨[.rotated _, .rotated _, .modified], rfl, ?_, rfl, rfl, rfl, rfl, rfl⟩
    show 0 + t.size = 0 + ((t.detach f).attach key columns hidden).2.size + 0
    omega

theorem Sound.accounts_erase (h : t.Sound) {key : Key} (he : t.erase key = .ok t') :
    ∃ events, t.Accounts t' events {} := by
  cases hf : t.focus? key with
  | none =>
    rw [erase_of_none hf] at he
    cases he
  | some f =>
    rw [erase_of_some hf] at he
    cases he
    have hsize := h.size_detach (h.splits_of_focus? hf).1
    refine ⟨[.rotated _, .deleted], rfl, ?_, rfl, rfl, rfl, rfl, rfl⟩
    show 0 + t.size = 1 + (t.detach f).size + 0
    omega

theorem Sound.accounts_clear (h : t.Sound) : t.Accounts t.clear [] { cleared := t.size } := by
  refine ⟨rfl, ?_, rfl, rfl, rfl, rfl, rfl⟩
  show 0 + t.size = 0 + t.clear.size + t.size
  rw [h.clear.size_eq]
  rfl

theorem accounts_collapse {key : Key} {keys : List Key} (hc : t.collapse key = .ok (keys, t')) :
    ∃ events, t.Accounts t' events { hidden := keys.length } := by
  cases hf : t.focus? key with
  | none =>
    rw [collapse_of_none hf] at hc
    cases hc
  | some f =>
    rw [collapse_of_some hf] at hc
    cases hc
    rw [List.length_map]
    exact ⟨[.hidden _], rfl, rfl, rfl, rfl, rfl, rfl, rfl⟩

theorem accounts_expand {key : Key} {keys : List Key} (hc : t.expand key = .ok (keys, t')) :
    ∃ events, t.Accounts t' events { unhidden := keys.length } := by
  cases hf : t.focus? key with
  | none =>
    rw [expand_of_none hf] at hc
    cases hc
  | some f =>
    cases hh : f.entry.hidden with
    | true =>
      rw [expand_of_hidden hf hh] at hc
      cases hc
    | false =>
      rw [expand_of_some hf hh] at hc
      cases hc
      rw [List.length_map]
      exact ⟨[.unhidden _], rfl, rfl, rfl, rfl, rfl, rfl, rfl⟩

theorem accounts_seek {origin : Origin} {offset : Int} {travel : Travel}
    (hs : t.seek origin offset = .ok (travel, t')) :
    ∃ events, t.Accounts t' events { sought := 1 } := by
  rcases t.seek_cases origin offset with ⟨fault, he⟩ | ⟨travel, p, he, -⟩
  all_goals
    rw [he] at hs
    cases hs
  exact ⟨[.sought], rfl, rfl, rfl, rfl, rfl, rfl, rfl⟩

theorem accounts_createBookmark {mark : Mark} (hb : t.createBookmark = .ok (mark, t')) :
    ∃ events, t.Accounts t' events { bookmarked := 1 } := by
  rcases t.createBookmark_cases with ⟨fault, he⟩ | ⟨-, he⟩
  all_goals
    rw [he] at hb
    cases hb
  exact ⟨[.bookmarked], rfl, rfl, rfl, rfl, rfl, rfl, rfl⟩

theorem accounts_goTo {key : Key} (hg : t.goTo key = .ok t') : t.Accounts t' [] {} := by
  cases hf : t.focus? key with
  | none =>
    rw [goTo_of_none hf] at hg
    cases hg
  | some f =>
    rw [goTo_of_some hf] at hg
    cases hg
    exact .of_nothing rfl rfl

theorem accounts_freeBookmark {mark : Mark} (hf : t.freeBookmark mark = .ok t') :
    t.Accounts t' [] {} := by
  unfold freeBookmark at hf
  cases hb : t.bookmark mark with
  | error fault =>
    rw [hb] at hf
    cases hf
  | ok b =>
    rw [hb] at hf
    cases hf
    exact .of_nothing rfl rfl

theorem accounts_read (t : Table) (r : Reading) : t.Accounts (t.read r).2 [] {} := by
  cases ha : r.advance with
  | true => exact .of_nothing (by simp only [read, ha, if_true]) (by simp only [read, ha]; rfl)
  | false => exact .of_nothing (by simp [read, ha]) (by simp [read, ha])

/-- Every command is accounted for by the events that it notes. -/
theorem Sound.accounts (h : t.Sound) (c : Command) :
    ∃ events, t.Accounts (t.perform c).2 events (t.turnoverOf c) := by
  cases ha : t.answer c with
  | error fault => exact ⟨[], accounts_of_error ha⟩
  | ok r =>
    obtain ⟨reply, t'⟩ := r
    unfold turnoverOf
    rw [perform_of_ok ha]
    cases c with
    | put key columns hidden =>
      obtain ⟨⟨p, t'⟩, hp, hr⟩ := exists_of_map_eq_ok ha
      cases hr
      exact h.accounts_put hp
    | setColumn key index column =>
      obtain ⟨⟨p, t'⟩, hp, hr⟩ := exists_of_map_eq_ok ha
      cases hr
      obtain ⟨columns, hidden, hput⟩ := put_of_setColumn hp
      exact h.accounts_put hput
    | erase key =>
      obtain ⟨t', he, hr⟩ := exists_of_map_eq_ok ha
      cases hr
      exact h.accounts_erase he
    | clear =>
      cases ha
      exact ⟨[], h.accounts_clear⟩
    | collapse key =>
      obtain ⟨⟨keys, t'⟩, hc, hr⟩ := exists_of_map_eq_ok ha
      cases hr
      exact accounts_collapse hc
    | expand key =>
      obtain ⟨⟨keys, t'⟩, hc, hr⟩ := exists_of_map_eq_ok ha
      cases hr
      exact accounts_expand hc
    | seek origin offset =>
      obtain ⟨⟨travel, t'⟩, hs, hr⟩ := exists_of_map_eq_ok ha
      cases hr
      exact accounts_seek hs
    | createBookmark =>
      obtain ⟨⟨mark, t'⟩, hb, hr⟩ := exists_of_map_eq_ok ha
      cases hr
      exact accounts_createBookmark hb
    | goTo key =>
      obtain ⟨t', hg, hr⟩ := exists_of_map_eq_ok ha
      cases hr
      exact ⟨[], accounts_goTo hg⟩
    | freeBookmark mark =>
      obtain ⟨t', hf, hr⟩ := exists_of_map_eq_ok ha
      cases hr
      exact ⟨[], accounts_freeBookmark hf⟩
    | read r =>
      cases ha
      exact ⟨[], t.accounts_read r⟩
    | visibleBefore | resolve | family | get | verify =>
      obtain ⟨a, -, hr⟩ := exists_of_map_eq_ok ha
      cases hr
      exact ⟨[], .of_nothing rfl rfl⟩
    | next | prev | lowerBound | find | contains | isEmpty | rowCount =>
      cases ha
      exact ⟨[], .of_nothing rfl rfl⟩

/-! ## A run -/

/-- Every run is accounted for by the events that its commands note, one after the other. -/
theorem Sound.accounts_run (h : t.Sound) (commands : List Command) :
    ∃ events, t.Accounts (t.run commands) events (t.turnover commands) := by
  induction commands generalizing t with
  | nil => exact ⟨[], .of_nothing rfl rfl⟩
  | cons c rest ih =>
    obtain ⟨events, haccounts⟩ := h.accounts c
    obtain ⟨events', haccounts'⟩ := ih (h.perform c)
    exact ⟨events ++ events', haccounts.append haccounts'⟩

/-- The tally of a table shows the turnover, and how many rows there are beside those that were
deleted or cleared. -/
structure Balanced (t : Table) (u : Turnover) : Prop where
  rows : t.tally.added.toNat = t.tally.deleted.toNat + t.size + u.cleared
  placed : t.tally.added.toNat + t.tally.modified.toNat + t.tally.unchanged.toNat = u.placed
  hidden : t.tally.hidden.toNat = u.hidden
  unhidden : t.tally.unhidden.toNat = u.unhidden
  sought : t.tally.seeks.toNat = u.sought
  bookmarked : t.tally.bookmarks.toNat = u.bookmarked

/-- What was noted since the table was made balances, if no counter has come round. -/
theorem Accounts.balanced {settings : Settings} {collation : Collation}
    (h : (empty settings collation).Accounts t events u) (hc : settings.collectTally = true)
    (fits : u.Fits) : t.Balanced u := by
  have hsize : (empty settings collation).size = 0 := (sound_empty settings collation).size_eq
  have hrows := h.rows
  have hplaced := h.placed
  have hu := fits.placed
  have hshows {k : Counter} (hk : amounts events k < 2 ^ 64) :
      (t.tally.value k).toNat = amounts events k := by
    have htally : t.tally = (Tally.zero settings.collectTally).noteAll events := h.tally
    rw [htally, hc, Tally.toNat_value_noteAll hk]
  have hadded : t.tally.added.toNat = _ := hshows (k := .added) (by omega)
  have hmodified : t.tally.modified.toNat = _ := hshows (k := .modified) (by omega)
  have hunchanged : t.tally.unchanged.toNat = _ := hshows (k := .unchanged) (by omega)
  have hdeleted : t.tally.deleted.toNat = _ := hshows (k := .deleted) (by omega)
  refine ⟨by omega, by omega, ?_, ?_, ?_, ?_⟩
  · exact (hshows (k := .hidden) (h.hidden ▸ fits.hidden)).trans h.hidden
  · exact (hshows (k := .unhidden) (h.unhidden ▸ fits.unhidden)).trans h.unhidden
  · exact (hshows (k := .seeks) (h.sought ▸ fits.sought)).trans h.sought
  · exact (hshows (k := .bookmarks) (h.bookmarked ▸ fits.bookmarked)).trans h.bookmarked

/-! ## Tallies of runs -/

/-- The tally of a run balances, calls that fail are not counted, and a table that does not count
is otherwise the same. -/
structure KeepsAccounts (settings : Settings) (collation : Collation) (commands : List Command) :
    Prop where
  balanced : settings.collectTally = true →
    ((empty settings collation).turnover commands).Fits →
      ((empty settings collation).run commands).Balanced
        ((empty settings collation).turnover commands)
  /-- A call that fails in place has noted nothing on the way. -/
  failing (c : Command) (fault : Fault) :
    ((Procedure.ofCommand c).on ((empty settings collation).run commands)).1 = .error fault →
      ((Procedure.ofCommand c).on ((empty settings collation).run commands)).2.tally =
        ((empty settings collation).run commands).tally
  silent : ((empty { settings with collectTally := false } collation).run commands).tally =
    .zero false
  replies : (empty { settings with collectTally := false } collation).replies commands =
    (empty settings collation).replies commands
  run : (empty { settings with collectTally := false } collation).run commands =
    ((empty settings collation).run commands).mute

/-- Whatever the settings and the commands, the tally is right where it is kept, and it makes no
difference where it is not. -/
theorem keepsAccounts (settings : Settings) (collation : Collation) (commands : List Command) :
    KeepsAccounts settings collation commands := by
  have hs := (sound_empty settings collation).run commands
  have hrun : (empty { settings with collectTally := false } collation).run commands =
      ((empty settings collation).run commands).mute := by
    rw [← empty_mute, run_mute]
  refine ⟨fun hc fits => ?_, fun c fault hf => ?_, by rw [hrun, tally_mute], ?_, hrun⟩
  · obtain ⟨events, haccounts⟩ := (sound_empty settings collation).accounts_run commands
    exact haccounts.balanced hc fits
  · rw [Procedure.on_ofCommand hs] at hf ⊢
    rw [perform_snd_of_error hf]
  · rw [← empty_mute, replies_mute]

/-- Rows are put, moved, hidden and shown, one is deleted, and the rest is cleared before another
one is put; some of the calls fail. -/
def busyDay : List Command :=
  [.put ⟨1, 1⟩ [.binary [1]] false, .put ⟨1, 2⟩ [.binary [1], .binary [2]] false,
    .put ⟨1, 3⟩ [.binary [3]] false, .put ⟨1, 3⟩ [.binary [3]] true,
    .put ⟨1, 3⟩ [.binary [2]] false, .setColumn ⟨1, 3⟩ 0 (.binary [4]),
    .setColumn ⟨1, 3⟩ 1 (.binary [4]), .collapse ⟨1, 1⟩, .expand ⟨1, 1⟩, .seek .start 1,
    .seek (.bookmark ⟨9⟩) 1, .createBookmark, .erase ⟨1, 2⟩, .erase ⟨1, 2⟩, .clear,
    .put ⟨1, 4⟩ [] false]

/-- Four rows were added; one was deleted, two were cleared and one is left. -/
theorem keepsAccounts_busyDay :
    ((empty {} .bytewise).turnover busyDay).Fits ∧
      ((empty {} .bytewise).run busyDay).Balanced ⟨7, 2, 1, 1, 1, 1⟩ ∧
      ((empty {} .bytewise).run busyDay).tally.added = 4 ∧
      ((empty {} .bytewise).run busyDay).tally.deleted = 1 := by
  have hturnover : (empty {} .bytewise).turnover busyDay = ⟨7, 2, 1, 1, 1, 1⟩ := by cbv
  have hfits : ((empty {} .bytewise).turnover busyDay).Fits := by
    rw [hturnover]
    exact ⟨by decide, by decide, by decide, by decide, by decide⟩
  exact ⟨hfits, hturnover ▸ (keepsAccounts {} .bytewise busyDay).balanced rfl hfits, by cbv, by cbv⟩

end Table

end LiveTable
