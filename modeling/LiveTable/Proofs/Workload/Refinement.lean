import LiveTable.Proofs.PlainTable
import LiveTable.Proofs.Table.Listing
import LiveTable.Workload.Action

/-!
# A table does what a plain table does

Every action of a workload is a call of the table (`Follows.onTable_eq`), and on plain tables it
does to the rows what that call does to those of the table (`Follows.onPlain_eq`). A pair whose two
tables have the same rows therefore keeps them the same (`Linked.act`), and tables with the same
rows cannot be told apart by what is asked of them (`Linked.agrees`, `Linked.answers`).
-/

namespace LiveTable

/-! ## Actions -/

namespace Action

def command : Action → Command
  | .put key columns hidden => .put key columns hidden
  | .erase key => .erase key
  | .seek offset => .seek .current offset
  | .read count => .read { count := count, advance := true }
  | .collapse key => .collapse key
  | .expand key => .expand key

/-- A row that is put has a key of its own, and its columns are as the schema has them. -/
def Follows (a : Action) (σ : Schema) : Prop :=
  match a with
  | .put key columns _ => key ≠ .reserved ∧ columns.Follows σ
  | _ => True

variable {t : Table} {σ : Schema} {a : Action}

theorem Follows.follows_command (h : a.Follows σ) : a.command.Follows σ := by
  cases a with
  | put key columns hidden => exact h.2
  | _ => trivial

theorem orMissing_map {α : Type} {x : Except Fault α} {f : α → Reply × Table} {c : Command}
    (h : t.answer c = x.map f) (hx : ∀ fault, x = .error fault → ∃ key, fault = .notFound key) :
    orMissing t (x.map fun a => (f a).2) = .ok (t.perform c).2 := by
  cases he : x with
  | error fault =>
    obtain ⟨key, rfl⟩ := hx fault he
    rw [Table.perform_map_error h he]
    rfl
  | ok a =>
    rw [Table.perform_map_ok h he rfl]
    rfl

theorem Follows.onTable_eq (h : a.Follows σ) (t : Table) :
    a.onTable t = .ok (t.perform a.command).2 := by
  cases a with
  | put key columns hidden =>
    rw [onTable, command]
    rcases t.put_cases key columns hidden with ⟨hk, -⟩ | ⟨-, -, he⟩ | ⟨f, -, -, -, he⟩ |
      ⟨f, -, -, -, he⟩
    · exact absurd hk h.1
    all_goals
      rw [Table.perform_map_ok (c := .put key columns hidden) rfl he rfl, he]
      rfl
  | erase key =>
    have hmap : (t.erase key).map (fun t => t) = t.erase key := by cases t.erase key <;> rfl
    rw [onTable, ← hmap]
    refine orMissing_map (c := .erase key) rfl fun fault he => ⟨key, ?_⟩
    cases hf : t.focus? key with
    | none =>
      cases (Table.erase_of_none hf).symm.trans he
      rfl
    | some f => cases (Table.erase_of_some hf).symm.trans he
  | seek offset => rfl
  | read count => rfl
  | collapse key =>
    refine orMissing_map (c := .collapse key) rfl fun fault he => ⟨key, ?_⟩
    cases hf : t.focus? key with
    | none =>
      cases (Table.collapse_of_none hf).symm.trans he
      rfl
    | some f => cases (Table.collapse_of_some hf).symm.trans he
  | expand key =>
    refine orMissing_map (c := .expand key) rfl fun fault he => ⟨key, ?_⟩
    rcases t.expand_cases key with he' | ⟨f, keys, n, -, he'⟩
    · cases he'.symm.trans he
      rfl
    · cases he'.symm.trans he

/-- On plain tables an action does to the rows what its call does to those of a table. -/
theorem Follows.onPlain_eq (h : a.Follows σ) (hs : t.Sound) (ho : t.Ordered σ)
    (hc : t.collation = .bytewise) :
    a.onPlain (plainOf t.entries) = plainOf (t.perform a.command).2.entries := by
  cases a with
  | put key columns hidden => exact ho.put_plainOf hs hc h.1 h.2 hidden
  | erase key => exact hs.erase_plainOf key
  | seek offset => rfl
  | read count => rfl
  | collapse key =>
    rw [onPlain, hs.collapse_plainOf hc, command]
    cases he : t.collapse key with
    | error fault =>
      rw [Table.perform_map_error (c := .collapse key) rfl he]
      rfl
    | ok r =>
      rw [Table.perform_map_ok (c := .collapse key) rfl he rfl]
      rfl
  | expand key =>
    rw [onPlain, hs.expand_plainOf hc, command]
    cases he : t.expand key with
    | error fault =>
      rw [Table.perform_map_error (c := .expand key) rfl he]
      rfl
    | ok r =>
      rw [Table.perform_map_ok (c := .expand key) rfl he rfl]
      rfl

end Action

/-! ## Pairs -/

def orNotFound {α : Type} (key : Key) : Option α → Except Fault α
  | some a => .ok a
  | none => .error (.notFound key)

namespace Pair

def after (actions : List Action) : Pair := actions.foldl (fun p a => (p.act a).2) empty

/-- The two tables have the same rows in the same order. -/
structure Agrees (p : Pair) : Prop where
  allRows (hidden : Bool) : (p.table.allRows hidden).1 = p.plain.keys hidden
  size : p.table.size = p.plain.size
  visible : p.table.visible = p.plain.visible
  get (key : Key) : p.table.get key = orNotFound key (p.plain.get? key)

/-- The table accepts the action and answers what the plain table has to say about it. -/
structure Answers (p : Pair) (a : Action) : Prop where
  accepted : (p.act a).1 = .ok ()
  put (key : Key) (columns : SortKey) (hidden : Bool) : a = .put key columns hidden →
    (p.table.put key columns hidden).map (·.1.predecessor) =
      .ok ((p.act a).2.plain.predecessor? key)
  collapse (key : Key) : a = .collapse key →
    (p.table.collapse key).map (·.1) = orNotFound key ((p.plain.collapse key).map (·.1))
  expand (key : Key) : a = .expand key →
    (p.table.expand key).map (·.1) = orNotFound key ((p.plain.expand key).map (·.1))

/-- The plain table has the rows of the table, which is sound and in order. -/
structure Linked (p : Pair) (σ : Schema) : Prop where
  sound : p.table.Sound
  ordered : p.table.Ordered σ
  collation : p.table.collation = .bytewise
  plain : p.plain = plainOf p.table.entries

variable {p : Pair} {σ : Schema} {a : Action}

theorem linked_empty (σ : Schema) : empty.Linked σ where
  sound := Table.sound_empty ..
  ordered := Table.ordered_empty _ Collation.isPreorder_bytewise σ
  collation := rfl
  plain := rfl

theorem act_eq (h : a.Follows σ) :
    p.act a = (.ok (), ⟨(p.table.perform a.command).2, a.onPlain p.plain⟩) := by
  rw [act, h.onTable_eq p.table]

theorem Linked.act (h : p.Linked σ) (ha : a.Follows σ) : (p.act a).2.Linked σ := by
  rw [act_eq ha]
  refine ⟨h.sound.perform _, h.ordered.perform h.sound ha.follows_command,
    (p.table.collation_perform _).trans h.collation, ?_⟩
  rw [h.plain]
  exact ha.onPlain_eq h.sound h.ordered h.collation

theorem Linked.agrees (h : p.Linked σ) : p.Agrees where
  allRows hidden := by
    rw [h.sound.allRows_fst, h.plain, PlainTable.keys, plainOf, List.filter_map, List.map_map]
    rfl
  size := by
    rw [h.sound.size_eq, h.plain, PlainTable.size, plainOf, List.length_map]
  visible := by
    rw [h.sound.visible_eq, h.plain, PlainTable.visible, plainOf, List.countP_map]
    rfl
  get key := by
    rw [Table.get, h.plain]
    cases hf : p.table.focus? key with
    | none =>
      rw [Table.lookup_of_none hf, get?_plainOf_of_not (h.sound.focus?_eq_none_iff.1 hf)]
      rfl
    | some f =>
      obtain ⟨hsp, rfl⟩ := h.sound.splits_of_focus? hf
      have hl := Table.entries_of_splits hsp
      rw [Table.lookup_of_some hf, hl,
        show (plainOf (f.before ++ f.entry :: f.after)).get? f.key = _ from
          get?_plainOf (hl ▸ h.sound.distinct)]
      rfl

theorem Linked.answers (h : p.Linked σ) (ha : a.Follows σ) : p.Answers a where
  accepted := by rw [act_eq ha]
  put key columns hidden he := by
    subst he
    cases hp : p.table.put key columns hidden with
    | error fault =>
      rcases p.table.put_cases key columns hidden with ⟨hk, -⟩ | ⟨-, -, he⟩ | ⟨f, -, -, -, he⟩ |
        ⟨f, -, -, -, he⟩
      · exact absurd hk ha.1
      all_goals cases hp.symm.trans he
    | ok r =>
      obtain ⟨placement, t'⟩ := r
      obtain ⟨xs, e, ys, he, rfl, hpred, -⟩ := h.sound.put_predecessor hp
      have ht : (p.act (.put e.key columns hidden)).2.table = t' := by
        rw [act_eq ha]
        exact Table.perform_map_ok (c := .put e.key columns hidden) rfl hp rfl
      have hl := h.act ha
      have hd : Distinct (xs ++ e :: ys) := by
        rw [← he, ← ht]
        exact hl.sound.distinct
      rw [hl.plain, ht, he, predecessor?_plainOf hd, ← hpred]
      rfl
  collapse key he := by
    rw [h.plain, h.sound.collapse_plainOf h.collation]
    cases hf : p.table.focus? key with
    | none =>
      rw [Table.collapse_of_none hf]
      rfl
    | some f =>
      rw [Table.collapse_of_some hf]
      rfl
  expand key he := by
    rw [h.plain, h.sound.expand_plainOf h.collation]
    rcases p.table.expand_cases key with he | ⟨f, keys, n, -, he⟩
    · rw [he]
      rfl
    · rw [he]
      rfl

theorem Linked.foldl (h : p.Linked σ) {actions : List Action} (ha : ∀ a ∈ actions, a.Follows σ) :
    (actions.foldl (fun p a => (p.act a).2) p).Linked σ := by
  induction actions generalizing p with
  | nil => exact h
  | cons a rest ih =>
    exact ih (h.act (ha a List.mem_cons_self)) fun b hb => ha b (List.mem_cons_of_mem a hb)

theorem table_foldl {actions : List Action} (h : ∀ a ∈ actions, a.Follows σ) (p : Pair) :
    (actions.foldl (fun p a => (p.act a).2) p).table =
      p.table.run (actions.map Action.command) := by
  induction actions generalizing p with
  | nil => rfl
  | cons a rest ih =>
    have ha : (p.act a).2.table = (p.table.perform a.command).2 := by
      rw [act_eq (h a List.mem_cons_self)]
    rw [List.foldl_cons, ih fun b hb => h b (List.mem_cons_of_mem a hb), ha, List.map_cons,
      Table.run_cons]

/-- Along any list of actions of one schema the table and the plain table agree, before the first
action, after every one of them, and in what the next one answers. -/
theorem agrees_along {actions : List Action} (h : ∀ a ∈ actions, a.Follows σ)
    {done rest : List Action} (hs : actions = done ++ rest) :
    (after done).Agrees ∧ ∀ a ∈ rest.head?, (after done).Answers a := by
  subst hs
  have hl : (after done).Linked σ :=
    (linked_empty σ).foldl fun a ha => h a (List.mem_append_left rest ha)
  refine ⟨hl.agrees, fun a ha => hl.answers (h a (List.mem_append_right done ?_))⟩
  exact List.mem_of_mem_head? ha

/-- A header with two members, one of which is put twice, collapsed and expanded again. -/
theorem agrees_along_category :
    let header : SortKey := [Column.binary [1]]
    let member (b : UInt8) : SortKey := [Column.binary [1], Column.binary [b]]
    let done : List Action := [.put ⟨1, 0⟩ header false, .put ⟨1, 1⟩ (member 2) false,
      .put ⟨1, 2⟩ (member 2) false, .put ⟨1, 1⟩ (member 3) false, .collapse ⟨1, 0⟩]
    (∀ a ∈ done ++ [.expand ⟨1, 0⟩], a.Follows fun _ => (.binary, false)) ∧
      (after done).Agrees ∧ (after done).Answers (.expand ⟨1, 0⟩) := by
  intro header member done
  have hk (bs : List UInt8) : SortKey.Follows (bs.map fun b => Column.binary [b])
      fun _ => (.binary, false) := by
    intro i c hi
    rw [List.getElem?_map] at hi
    obtain ⟨b, -, rfl⟩ := Option.map_eq_some_iff.1 hi
    rfl
  have ha : ∀ a ∈ done ++ [.expand ⟨1, 0⟩], a.Follows fun _ => (.binary, false) := by
    simp only [done, List.cons_append, List.nil_append, List.forall_mem_cons]
    exact ⟨⟨by decide, hk [1]⟩, ⟨by decide, hk [1, 2]⟩, ⟨by decide, hk [1, 2]⟩,
      ⟨by decide, hk [1, 3]⟩, trivial, trivial, by simp⟩
  have h := agrees_along ha rfl
  exact ⟨ha, h.1, h.2 _ rfl⟩

end Pair

end LiveTable
