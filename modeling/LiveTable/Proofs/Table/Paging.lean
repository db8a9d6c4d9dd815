import Mathlib
import LiveTable.Proofs.Table.Listing

/-!
# Paging through a table that changes

While pages are read from the first visible row on, rows may be put, erased, hidden, shown and
brought to new places. The steady rows are those that are there and visible all the time and are
never brought to a new place. A read lists the steady rows that it passes, and no other command
takes a steady row from one side of the cursor to the other (`Spares.listed_append`). What the
pages list of the steady rows is therefore what lay ahead of the cursor at the start, once the
cursor is past the end (`pages_filter_steady`).
-/

namespace LiveTable

/-- A forward read of visible rows that takes the cursor along. -/
def Command.isPage : Command → Bool
  | .read r => !r.backward && !r.hidden && r.advance
  | _ => false

/-- The keys that satisfy `s` among those of some rows. -/
def keysIn (s : Key → Bool) (rows : List Entry) : List Key := (rows.map (·.key)).filter s

section

variable {s : Key → Bool} {xs ys : List Entry} {e : Entry}

theorem keysIn_append : keysIn s (xs ++ ys) = keysIn s xs ++ keysIn s ys := by
  rw [keysIn, List.map_append, List.filter_append]
  rfl

theorem keysIn_cons_of_neg (he : s e.key = false) : keysIn s (e :: ys) = keysIn s ys :=
  List.filter_cons_of_neg (by simp [he])

theorem keysIn_eq_nil (h : ∀ a ∈ xs, s a.key = false) : keysIn s xs = [] := by
  rw [keysIn, List.filter_eq_nil_iff]
  intro k hk
  obtain ⟨a, ha, rfl⟩ := List.mem_map.1 hk
  simp [h a ha]

theorem keysIn_filter {p : Entry → Bool} (h : ∀ a ∈ xs, s a.key = true → p a = true) :
    keysIn s (xs.filter p) = keysIn s xs := by
  rw [keysIn, keysIn, List.filter_map, List.filter_map, List.filter_filter]
  apply congrArg (List.map _)
  apply List.filter_congr
  intro a ha
  cases hs : s a.key with
  | false => simp [hs]
  | true => simp [hs, h a ha hs]

theorem SameRows.keysIn_eq (h : SameRows xs ys) : keysIn s xs = keysIn s ys := by
  rw [keysIn, h.keys]
  rfl

theorem SameRows.ahead (h : SameRows xs ys) (p : Position) :
    SameRows (p.ahead xs) (p.ahead ys) := by
  cases p with
  | beforeFirst => exact h
  | pastEnd => exact .refl []
  | row key =>
    have hd (rows : List Entry) : ((Position.row key).ahead rows).map (·.toRow) =
        (rows.map (·.toRow)).dropWhile (·.key ≠ key) := by
      rw [List.dropWhile_map]
      rfl
    rw [SameRows, hd, hd, h]

/-- A row of no concern may come or go anywhere but under the cursor. -/
theorem keysIn_ahead_middle {p : Position} (hp : p ≠ .row e.key) (he : s e.key = false) :
    keysIn s (p.ahead (xs ++ e :: ys)) = keysIn s (p.ahead (xs ++ ys)) := by
  have hmiddle (zs : List Entry) : keysIn s (zs ++ e :: ys) = keysIn s (zs ++ ys) := by
    rw [keysIn_append, keysIn_append, keysIn_cons_of_neg he]
  cases p with
  | beforeFirst => exact hmiddle xs
  | pastEnd => rfl
  | row key =>
    have hk : decide (e.key ≠ key) = true := decide_eq_true fun h => hp (h ▸ rfl)
    simp only [Position.ahead, List.dropWhile_append]
    split
    · rw [List.dropWhile_cons_of_pos (p := fun a : Entry => decide (a.key ≠ key)) hk]
    · exact hmiddle _

end

namespace Table

/-! ## Steady rows -/

def shows (t : Table) (key : Key) : Bool := t.entries.any fun e => e.key = key && e.isVisible

/-- The row is there and visible before, between and after the commands, and none of them brings
it to a new place. -/
def steady (t : Table) : List Command → Key → Bool
  | [], key => t.shows key
  | c :: rest, key => t.shows key && t.resorted? c ≠ some key && (t.perform c).2.steady rest key

/-- What may be called between the pages: anything that edits, unless it brings the row under the
cursor to a new place, further pages, and whatever leaves the cursor where it is. -/
def Permits (t : Table) (c : Command) : Prop :=
  match c with
  | .put .. | .setColumn .. => ∀ key, t.resorted? c = some key → t.cursor ≠ .row key
  | .erase _ | .collapse _ | .expand _ => True
  | c => c.isPage = true ∨ (t.perform c).2.cursor = t.cursor

def Permitted (t : Table) : List Command → Prop
  | [] => True
  | c :: rest => t.Permits c ∧ (t.perform c).2.Permitted rest

def listed (t : Table) (c : Command) : List Key :=
  if c.isPage then
    match (t.perform c).1 with
    | .ok (.keys keys) => keys
    | _ => []
  else []

def pages (t : Table) : List Command → List Key
  | [] => []
  | c :: rest => t.listed c ++ (t.perform c).2.pages rest

/-- The keys in `s` are those of rows that are visible before and after a command and are not
brought to a new place by it. -/
structure Spares (t : Table) (c : Command) (s : Key → Bool) : Prop where
  before {key : Key} : s key = true → t.shows key = true
  after {key : Key} : s key = true → (t.perform c).2.shows key = true
  still {key : Key} : s key = true → t.resorted? c ≠ some key

variable {t : Table} {c : Command} {s : Key → Bool} {key : Key}

theorem shows_iff : t.shows key = true ↔ ∃ e ∈ t.entries, e.key = key ∧ e.hidden = false := by
  simp [shows, Entry.isVisible]

theorem not_shows_of_hidden (hd : Distinct t.entries) {e : Entry} (he : e ∈ t.entries)
    (hh : e.hidden = true) : t.shows e.key = false := by
  rw [Bool.eq_false_iff, ne_eq, shows_iff]
  rintro ⟨a, ha, hk, hv⟩
  rw [hd.eq_of_key ha he hk, hh] at hv
  cases hv

theorem not_shows_of_not (hk : ¬ HasKey t.entries key) : t.shows key = false := by
  rw [Bool.eq_false_iff, ne_eq, shows_iff]
  rintro ⟨e, he, hek, -⟩
  exact hk ⟨e, he, hek⟩

theorem Spares.of_not_before (h : t.Spares c s) (hk : t.shows key = false) : s key = false := by
  cases hs : s key with
  | false => rfl
  | true => exact absurd hk (by simp [h.before hs])

theorem Spares.of_not_after (h : t.Spares c s) (hk : (t.perform c).2.shows key = false) :
    s key = false := by
  cases hs : s key with
  | false => rfl
  | true => exact absurd hk (by simp [h.after hs])

theorem Spares.of_resorted (h : t.Spares c s) (hk : t.resorted? c = some key) : s key = false := by
  cases hs : s key with
  | false => rfl
  | true => exact absurd hk (h.still hs)

/-! ## One command -/

theorem keysIn_attach (t : Table) {columns : SortKey} {hidden : Bool} {p : Position}
    (hp : p ≠ .row key) (hk : s key = false) :
    keysIn s (p.ahead (t.attach key columns hidden).2.entries) = keysIn s (p.ahead t.entries) := by
  rw [entries_attach, keysIn_ahead_middle (e := t.newEntry key columns hidden) hp hk,
    t.lower_append_upper columns]

theorem keysIn_detach {f : Focus} {xs ys : List Entry} {e : Entry} (hs : f.Splits t.tree xs e ys)
    {p : Position} (hp : p ≠ .row e.key) (he : s e.key = false) :
    keysIn s (p.ahead (t.detach f).entries) = keysIn s (p.ahead t.entries) := by
  rw [entries_detach hs, entries_of_splits hs, keysIn_ahead_middle hp he]

/-- Putting a row leaves the others where they are. -/
theorem Sound.keysIn_put (h : t.Sound) {columns : SortKey} (hidden : Bool) {p : Position}
    (hp : p.Within t.entries) (hm : t.moved? key columns = some key → p ≠ .row key)
    (hnew : ¬ HasKey t.entries key → s key = false)
    (hold : t.moved? key columns = some key → s key = false) :
    keysIn s (p.ahead (t.perform (.put key columns hidden)).2.entries) =
      keysIn s (p.ahead t.entries) := by
  rcases t.perform_put key columns hidden with ⟨-, he⟩ | ⟨-, hf, he⟩ | ⟨f, -, -, -, he⟩ |
    ⟨f, hr, hf, ha, he⟩
  all_goals rw [he]
  · have hk := h.focus?_eq_none_iff.1 hf
    refine t.keysIn_attach (fun hpk => ?_) (hnew hk)
    rw [hpk] at hp
    exact hk hp
  · rfl
  · have hmoved := moved?_of_not_alike hr hf ha
    obtain ⟨hsp, rfl⟩ := h.splits_of_focus? hf
    exact ((t.detach f).keysIn_attach (hm hmoved) (hold hmoved)).trans
      (keysIn_detach hsp (hm hmoved) (hold hmoved))

theorem Spares.keysIn_put {columns : SortKey} {hidden : Bool}
    (hs : t.Spares (.put key columns hidden) s) (h : t.Sound) {p : Position}
    (hp : p.Within t.entries)
    (hm : ∀ k, t.resorted? (.put key columns hidden) = some k → p ≠ .row k) :
    keysIn s (p.ahead (t.perform (.put key columns hidden)).2.entries) =
      keysIn s (p.ahead t.entries) :=
  h.keysIn_put hidden hp (hm key) (fun hk => hs.of_not_before (not_shows_of_not hk)) hs.of_resorted

theorem Spares.keysIn_setColumn {index : Nat} {column : Column}
    (hs : t.Spares (.setColumn key index column) s) (h : t.Sound) {p : Position}
    (hp : p.Within t.entries)
    (hm : ∀ k, t.resorted? (.setColumn key index column) = some k → p ≠ .row k) :
    keysIn s (p.ahead (t.perform (.setColumn key index column)).2.entries) =
      keysIn s (p.ahead t.entries) := by
  rw [perform_setColumn]
  cases hr : t.recolumned? key index column with
  | none => rfl
  | some r =>
    have hres (hk : t.moved? key r.1 = some key) :
        t.resorted? (.setColumn key index column) = some key := by
      rw [resorted?, hr]
      exact hk
    exact h.keysIn_put r.2 hp (fun hk => hm key (hres hk))
      (fun hk => hs.of_not_before (not_shows_of_not hk)) fun hk => hs.of_resorted (hres hk)

theorem Spares.of_erased (hs : t.Spares (.erase key) s) (h : t.Sound) : s key = false := by
  refine hs.of_not_after (not_shows_of_not ?_)
  rcases t.perform_erase key with ⟨hf, he⟩ | ⟨f, hf, he⟩
  all_goals rw [he]
  · exact h.focus?_eq_none_iff.1 hf
  · obtain ⟨hsp, rfl⟩ := h.splits_of_focus? hf
    have hl := entries_of_splits hsp
    show ¬ HasKey (t.detach f).entries f.entry.key
    rw [entries_detach hsp]
    exact (distinct_middle.1 (hl ▸ h.distinct)).1

theorem Spares.keysIn_clear (hs : t.Spares .clear s) (rows : List Entry) : keysIn s rows = [] := by
  refine keysIn_eq_nil fun e _ => hs.of_not_after (not_shows_of_not ?_)
  rintro ⟨_, he, -⟩
  cases he

/-- No command changes the order of the rows that it spares. -/
theorem Spares.keysIn_eq (hs : t.Spares c s) (h : t.Sound) :
    keysIn s (t.perform c).2.entries = keysIn s t.entries := by
  cases c using Command.edits_cases with
  | same c hc => rw [(t.perform_same hc).entries]
  | put key columns hidden => exact hs.keysIn_put h (p := .beforeFirst) trivial (by simp)
  | setColumn key index column => exact hs.keysIn_setColumn h (p := .beforeFirst) trivial (by simp)
  | erase key =>
    have hk := hs.of_erased h
    rcases t.perform_erase key with ⟨hf, he⟩ | ⟨f, hf, he⟩
    all_goals rw [he]
    · obtain ⟨hsp, rfl⟩ := h.splits_of_focus? hf
      exact keysIn_detach hsp (p := .beforeFirst) (by simp) hk
  | clear => rw [hs.keysIn_clear, hs.keysIn_clear]
  | collapse key =>
    rcases t.perform_collapse key with ⟨-, he⟩ | ⟨f, hf, he⟩
    all_goals rw [he]
    · exact (sameRows_collapsed (h.splits_of_focus? hf).1).keysIn_eq
  | expand key =>
    rcases t.perform_expand key with he | ⟨f, n, hf, he⟩
    all_goals rw [he]
    · exact (sameRows_expanded (h.splits_of_focus? hf).1).keysIn_eq

theorem Spares.keysIn_erase (hs : t.Spares (.erase key) s) (h : t.Sound) :
    keysIn s ((t.perform (.erase key)).2.cursor.ahead (t.perform (.erase key)).2.entries) =
      keysIn s (t.cursor.ahead t.entries) := by
  have hk := hs.of_erased h
  rcases t.perform_erase key with ⟨hf, he⟩ | ⟨f, hf, he⟩
  all_goals rw [he]
  · obtain ⟨hsp, rfl⟩ := h.splits_of_focus? hf
    have hl := entries_of_splits hsp
    have hd : Distinct (f.before ++ f.entry :: f.after) := hl ▸ h.distinct
    show keysIn s ((t.detach f).cursor.ahead (t.detach f).entries) = _
    rw [cursor_detach hsp]
    by_cases hc : t.cursor = .row f.entry.key
    · rw [if_pos hc, hc, entries_detach hsp, hl, Position.ahead_row hd,
        Position.ahead_first (distinct_middle.1 hd).2]
      exact (keysIn_cons_of_neg hk).symm
    · rw [if_neg hc]
      exact keysIn_detach hsp hc hk

theorem Spares.of_hidden (hs : t.Spares c s) (h : t.Sound) {e : Entry}
    (he : e ∈ (t.perform c).2.entries) (hh : e.hidden = true) : s e.key = false :=
  hs.of_not_after (not_shows_of_hidden (h.perform c).distinct he hh)

/-- From a member on, what comes before the first visible row behind the members is of no concern
if the members and the hidden rows are not. -/
theorem keysIn_ahead_member {xs members beyond : List Entry} {m : Entry} (hm : m ∈ members)
    (hd : Distinct (xs ++ (members ++ beyond))) (hmembers : ∀ a ∈ members, s a.key = false)
    (hhidden : ∀ a ∈ beyond, a.hidden = true → s a.key = false) :
    keysIn s ((Position.row m.key).ahead (xs ++ (members ++ beyond))) =
      keysIn s (beyond.dropWhile (·.hidden)) := by
  obtain ⟨ms, ms', rfl⟩ := List.append_of_mem hm
  have hsplit : xs ++ (ms ++ m :: ms' ++ beyond) = (xs ++ ms) ++ m :: (ms' ++ beyond) := by simp
  have hfront : keysIn s (m :: ms') = [] :=
    keysIn_eq_nil fun a ha => hmembers a (List.mem_append_right ms ha)
  have hskipped : keysIn s (beyond.takeWhile (·.hidden)) = [] :=
    keysIn_eq_nil fun a ha =>
      hhidden a ((List.takeWhile_sublist _).subset ha) (List.all_eq_true.1 List.all_takeWhile a ha)
  rw [hsplit, Position.ahead_row (hsplit ▸ hd), ← List.cons_append, keysIn_append, hfront,
    List.nil_append]
  conv => lhs; rw [← List.takeWhile_append_dropWhile (p := (·.hidden)) (l := beyond)]
  rw [keysIn_append, hskipped, List.nil_append]

/-- A cursor on a member that is hidden passes hidden rows only. -/
theorem Spares.keysIn_collapse (hs : t.Spares (.collapse key) s) (h : t.Sound) :
    keysIn s ((t.perform (.collapse key)).2.cursor.ahead (t.perform (.collapse key)).2.entries) =
      keysIn s (t.cursor.ahead t.entries) := by
  rcases t.perform_collapse key with ⟨hf, he⟩ | ⟨f, hf, he⟩
  · rw [he]
  · obtain ⟨hsp, rfl⟩ := h.splits_of_focus? hf
    have hgone (a : Entry) : a ∈ (t.collapsed f).entries → a.hidden = true → s a.key = false := by
      intro ha
      exact hs.of_hidden h (e := a) (by rw [he]; exact ha)
    have hsame := (sameRows_collapsed hsp).ahead t.cursor
    have hl := entries_of_splits hsp
    have hl' := entries_collapsed hsp
    rw [he]
    show keysIn s ((t.collapsed f).cursor.ahead (t.collapsed f).entries) = _
    rw [cursor_collapsed hsp]
    unfold cursorAfterHiding
    split
    · rename_i k hc
      split
      · rename_i hk
        obtain ⟨m, hm, rfl⟩ := List.mem_map.1 hk
        have hto : (t.collapsed f).entries =
            (f.before ++ f.entry :: ((t.membersIn f.entry f.after).map Entry.hide ++
              (t.beyondIn f.entry f.after).takeWhile (·.hidden))) ++
            (t.beyondIn f.entry f.after).dropWhile (·.hidden) := by
          rw [hl']
          simp
        have hfrom : t.entries = (f.before ++ [f.entry]) ++
            (t.membersIn f.entry f.after ++ t.beyondIn f.entry f.after) := by
          rw [hl, t.membersIn_append_beyondIn]
          simp
        rw [hto, Position.ahead_first (hto ▸ (h.collapsed hsp).distinct), hc, hfrom,
          keysIn_ahead_member hm (hfrom ▸ h.distinct)]
        · intro a ha
          refine hgone a.hide ?_ rfl
          rw [hl']
          exact List.mem_append_right _ (List.mem_cons_of_mem _
            (List.mem_append_left _ (List.mem_map_of_mem ha)))
        · exact fun a ha => hgone a (by rw [hl']; simp [ha])
      · rw [← hc]
        exact hsame.keysIn_eq
    · exact hsame.keysIn_eq

theorem Sound.keysIn_expand (h : t.Sound) (s : Key → Bool) (key : Key) :
    keysIn s ((t.perform (.expand key)).2.cursor.ahead (t.perform (.expand key)).2.entries) =
      keysIn s (t.cursor.ahead t.entries) := by
  rcases t.perform_expand key with he | ⟨f, n, hf, he⟩
  all_goals rw [he]
  · exact ((sameRows_expanded (h.splits_of_focus? hf).1).ahead t.cursor).keysIn_eq

theorem isPage_iff {r : Reading} :
    (Command.read r).isPage = true ↔ r.backward = false ∧ r.hidden = false ∧ r.advance = true := by
  simp [Command.isPage, and_assoc]

/-- A page lists the rows in question that it passes. -/
theorem Spares.listed_read {r : Reading} (hs : t.Spares (.read r) s) (h : t.Sound)
    (hr : (Command.read r).isPage = true) :
    (t.listed (.read r)).filter s ++
        keysIn s ((t.perform (.read r)).2.cursor.ahead (t.perform (.read r)).2.entries) =
      keysIn s (t.cursor.ahead t.entries) := by
  obtain ⟨hb, hh, ha⟩ := isPage_iff.1 hr
  obtain ⟨passed, hp, hrows, -⟩ := h.read_forward hb
  have hlist : t.listed (.read r) = (t.passage r).1.map (·.key) := if_pos hr
  have hstop : (t.perform (.read r)).2 = { t with cursor := t.readStop r } := by
    rw [perform_read, if_pos ha]
  rw [hlist, hstop, hrows]
  show _ ++ keysIn s ((t.readStop r).ahead t.entries) = _
  rw [hp, keysIn_append]
  apply congrArg (· ++ _)
  apply keysIn_filter
  intro a ha hk
  have hmem : a ∈ t.entries := by
    obtain ⟨xs, hx⟩ := t.cursor.ahead_suffix t.entries
    rw [hx, hp]
    exact List.mem_append_right xs (List.mem_append_left _ ha)
  cases hv : a.hidden with
  | false => simp [wants, Entry.isVisible, hv]
  | true =>
    have hno := not_shows_of_hidden h.distinct hmem hv
    rw [hs.before hk] at hno
    cases hno

/-- What a command lists of the rows that it spares, and what lies ahead of the cursor after it, is
what lay ahead before. -/
theorem Spares.listed_append (hs : t.Spares c s) (h : t.Sound) (hp : t.Permits c) :
    (t.listed c).filter s ++ keysIn s ((t.perform c).2.cursor.ahead (t.perform c).2.entries) =
      keysIn s (t.cursor.ahead t.entries) := by
  by_cases hpage : c.isPage = true
  · cases c with
    | read r => exact hs.listed_read h hpage
    | _ => cases hpage
  · rw [listed, if_neg hpage]
    show keysIn s _ = _
    cases c using Command.edits_cases with
    | same c hc =>
      have hcursor : (t.perform c).2.cursor = t.cursor := by
        cases c with
        | put | erase | setColumn | clear | collapse | expand => cases hc
        | _ => exact hp.resolve_left hpage
      rw [hcursor, (t.perform_same hc).entries]
    | put key columns hidden =>
      rw [cursor_perform_put]
      exact hs.keysIn_put h h.cursor hp
    | setColumn key index column =>
      rw [cursor_perform_setColumn]
      exact hs.keysIn_setColumn h h.cursor hp
    | erase key => exact hs.keysIn_erase h
    | clear => rw [hs.keysIn_clear, hs.keysIn_clear]
    | collapse key => exact hs.keysIn_collapse h
    | expand key => exact h.keysIn_expand s key

/-! ## A run -/

theorem steady_cons {rest : List Command} :
    t.steady (c :: rest) key = true ↔ t.shows key = true ∧ t.resorted? c ≠ some key ∧
      (t.perform c).2.steady rest key = true := by
  simp [steady, and_assoc]

theorem shows_of_steady {commands : List Command} (h : t.steady commands key = true) :
    t.shows key = true := by
  cases commands with
  | nil => exact h
  | cons c rest => exact (steady_cons.1 h).1

theorem spares_steady (t : Table) (c : Command) (rest : List Command) :
    t.Spares c (t.steady (c :: rest)) where
  before h := (steady_cons.1 h).1
  after h := shows_of_steady (steady_cons.1 h).2.2
  still h := (steady_cons.1 h).2.1

theorem filter_steady (t : Table) (c : Command) (rest : List Command) (keys : List Key) :
    (keys.filter ((t.perform c).2.steady rest)).filter (t.steady (c :: rest)) =
      keys.filter (t.steady (c :: rest)) := by
  rw [List.filter_filter]
  apply List.filter_congr
  intro k _
  cases hk : t.steady (c :: rest) k with
  | false => rfl
  | true => simp [(steady_cons.1 hk).2.2]

/-- The steady rows stay in order. -/
theorem Sound.keysIn_run (h : t.Sound) (done rest : List Command) :
    keysIn (t.steady (done ++ rest)) (t.run done).entries =
      keysIn (t.steady (done ++ rest)) t.entries := by
  induction done generalizing t with
  | nil => rfl
  | cons c done ih =>
    have hr := congrArg (List.filter (t.steady (c :: (done ++ rest)))) (ih (h.perform c))
    rw [keysIn, keysIn, filter_steady, filter_steady] at hr
    exact hr.trans ((t.spares_steady c (done ++ rest)).keysIn_eq h)

/-- Once the cursor is past the end, the pages have listed the steady rows that lay ahead of it. -/
theorem Sound.pages_filter (h : t.Sound) {commands : List Command} (hp : t.Permitted commands)
    (he : (t.run commands).cursor = .pastEnd) :
    (t.pages commands).filter (t.steady commands) =
      keysIn (t.steady commands) (t.cursor.ahead t.entries) := by
  induction commands generalizing t with
  | nil =>
    rw [show t.cursor = .pastEnd from he]
    rfl
  | cons c rest ih =>
    have hr := congrArg (List.filter (t.steady (c :: rest))) (ih (h.perform c) hp.2 he)
    rw [keysIn, filter_steady, filter_steady] at hr
    rw [pages, List.filter_append, hr]
    exact (t.spares_steady c rest).listed_append h hp.1

theorem Sound.keysIn_atStart (h : t.Sound) (hs : ∀ k, s k = true → t.shows k = true) :
    keysIn s (t.atStart.cursor.ahead t.entries) = keysIn s t.entries := by
  by_cases hv : t.visible = 0
  · rw [show t.atStart.cursor = .beforeFirst from if_pos hv]
    rfl
  · obtain ⟨xs, e, ys, he, hsel, -, hcount⟩ := h.select_lt (Nat.pos_of_ne_zero hv)
    have hfront : keysIn s xs = [] := by
      apply keysIn_eq_nil
      intro a ha
      have hno := not_shows_of_hidden h.distinct (e := a) (by rw [he]; simp [ha])
        (hidden_of_visibleCount hcount ha)
      cases hk : s a.key with
      | false => rfl
      | true => exact absurd (hs a.key hk) (by simp [hno])
    rw [show t.atStart.cursor = .row e.key from (if_neg hv).trans hsel, he,
      Position.ahead_row (he ▸ h.distinct), keysIn_append, hfront, List.nil_append]

/-- Paging from the first visible row on until the cursor is past the end lists every row that was
there and visible all the time, and was never brought to a new place, once and in table order,
whatever else was called in between. -/
theorem pages_filter_steady (h : t.Reachable) {start : Table}
    (hs : start = (t.perform (.seek .start 0)).2) {commands : List Command}
    (hp : start.Permitted commands) (he : (start.run commands).cursor = .pastEnd) :
    (∀ key, start.steady commands key = true → (start.pages commands).count key = 1) ∧
      ∀ done rest, commands = done ++ rest →
        (start.pages commands).filter (start.steady commands) =
          ((start.run done).entries.map (·.key)).filter (start.steady commands) := by
  rw [perform_seek_start] at hs
  subst hs
  have hsound := h.sound.atStart
  have hall : (t.atStart.pages commands).filter (t.atStart.steady commands) =
      keysIn (t.atStart.steady commands) t.atStart.entries := by
    rw [hsound.pages_filter hp he]
    exact h.sound.keysIn_atStart fun k hk => shows_of_steady (t := t.atStart) hk
  refine ⟨fun key hk => ?_, fun done rest hc => ?_⟩
  · obtain ⟨e, hm, rfl, -⟩ := shows_iff.1 (shows_of_steady hk)
    rw [← List.count_filter hk, hall, keysIn, List.count_filter hk, hsound.distinct.count,
      if_pos (List.mem_map_of_mem hm)]
  · subst hc
    exact hall.trans (hsound.keysIn_run done rest).symm

/-- Six rows, of which the third is the header of the next one. -/
def sixRows : Table :=
  (empty {} .bytewise).run [.put ⟨1, 1⟩ [Column.binary [1]] false,
    .put ⟨1, 2⟩ [Column.binary [2]] false, .put ⟨1, 3⟩ [Column.binary [3]] false,
    .put ⟨1, 7⟩ [Column.binary [3], Column.binary [0]] false,
    .put ⟨1, 4⟩ [Column.binary [4]] false, .put ⟨1, 5⟩ [Column.binary [5]] false]

/-- Three pages. First a row is put in front, the row under the cursor is erased, and the row that
has been listed is brought behind the others; then the row under the cursor is hidden, and the last
one is put again as it is. -/
def unsteadyPages : List Command :=
  [.read { count := 1, advance := true }, .put ⟨1, 6⟩ [Column.binary [0]] false, .erase ⟨1, 2⟩,
    .setColumn ⟨1, 1⟩ 0 (Column.binary [6]), .read { count := 1, advance := true },
    .collapse ⟨1, 3⟩, .createBookmark, .put ⟨1, 5⟩ [Column.binary [5]] true,
    .read { count := 5, advance := true }]

/-- The row that was brought to another place is listed twice, those that stayed once each. -/
theorem pages_filter_steady_between :
    let start := (sixRows.perform (.seek .start 0)).2
    sixRows.Reachable ∧ start.Permitted unsteadyPages ∧
      (start.run unsteadyPages).cursor = .pastEnd ∧
      start.pages unsteadyPages = [⟨1, 1⟩, ⟨1, 3⟩, ⟨1, 4⟩, ⟨1, 5⟩, ⟨1, 1⟩] ∧
      (start.pages unsteadyPages).filter (start.steady unsteadyPages) =
        [⟨1, 3⟩, ⟨1, 4⟩, ⟨1, 5⟩] ∧
      (start.pages unsteadyPages).count ⟨1, 4⟩ = 1 := by
  have hreachable : sixRows.Reachable := ⟨{}, .bytewise, _, rfl, rfl⟩
  have hpermitted : (sixRows.perform (.seek .start 0)).2.Permitted unsteadyPages := by
    refine ⟨.inl rfl, ?_, trivial, ?_, .inl rfl, trivial, .inr (by cbv), ?_, .inl rfl,
      trivial⟩
    · intro key hk
      cbv at hk
      cases hk
    · intro key hk hcursor
      cbv at hk hcursor
      cases hk
      cases hcursor
    · intro key hk
      cbv at hk
      cases hk
  have hend : ((sixRows.perform (.seek .start 0)).2.run unsteadyPages).cursor = .pastEnd := by cbv
  have hpages : (sixRows.perform (.seek .start 0)).2.pages unsteadyPages =
      [⟨1, 1⟩, ⟨1, 3⟩, ⟨1, 4⟩, ⟨1, 5⟩, ⟨1, 1⟩] := by cbv
  have hsteady : (sixRows.perform (.seek .start 0)).2.steady unsteadyPages ⟨1, 4⟩ = true := by cbv
  obtain ⟨honce, horder⟩ := pages_filter_steady hreachable rfl hpermitted hend
  refine ⟨hreachable, hpermitted, hend, hpages, ?_, honce _ hsteady⟩
  rw [horder [] unsteadyPages rfl]
  cbv

end Table

end LiveTable
