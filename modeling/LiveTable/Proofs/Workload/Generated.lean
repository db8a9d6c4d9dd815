import LiveTable.Proofs.Linked.Command
import LiveTable.Proofs.Workload.Refinement
import LiveTable.Workload.Profile

/-!
# What a profile can draw

Nothing is said here about how numbers are drawn but that they lie in the range that was asked for.
Whatever a source answers then, every action that a profile draws is one that the profile admits:
its key is one of the keys there are, and its sort key has the form of the profile, so that it
follows one schema (`Admits.follows`). A table that all of them are replayed on therefore accepts
them, stays in order, and agrees with a plain table (`replays`).
-/

namespace LiveTable

open LiveTable.Random

/-! ## Draws from any source -/

namespace Random

variable {σ α β : Type}

/-- Whatever state the source is in, `P` is true of what is drawn. -/
def Always (P : α → Prop) (draw : StateM σ α) : Prop := ∀ s, P (draw s).1

theorem Always.bind {P : α → Prop} {Q : β → Prop} {draw : StateM σ α} {next : α → StateM σ β}
    (h : Always P draw) (hnext : ∀ a, P a → Always Q (next a)) : Always Q (draw >>= next) :=
  fun s => hnext _ (h s) _

theorem Always.mono {P Q : α → Prop} {draw : StateM σ α} (h : Always P draw)
    (hpq : ∀ a, P a → Q a) : Always Q draw := fun s => hpq _ (h s)

theorem Always.map {P : α → Prop} {Q : β → Prop} {draw : StateM σ α} {f : α → β}
    (h : Always P draw) (hf : ∀ a, P a → Q (f a)) :
    Always Q (do return f (← draw)) :=
  h.bind fun a ha _ => hf a ha

theorem always_within [Source σ] (h : Source.InRange σ) (w : Width) {low high : Nat}
    (hle : low ≤ high) :
    Always (fun n => low ≤ n ∧ n ≤ high) (Source.within w low high : StateM σ Nat) :=
  h w hle

theorem Draw.times_succ (n : Nat) (draw : StateM σ α) :
    times (n + 1) draw = do
      let a ← draw
      return a :: (← times n draw) := by
  simp only [times, List.replicate_succ, List.mapM_cons, id]

theorem Always.times {P : α → Prop} {draw : StateM σ α} (h : Always P draw) (n : Nat) :
    Always (fun l => l.length = n ∧ ∀ a ∈ l, P a) (Draw.times n draw) := by
  induction n with
  | zero => exact fun s => ⟨rfl, fun a ha => nomatch ha⟩
  | succ n ih =>
    rw [Draw.times_succ]
    refine h.bind fun a ha => ih.map fun l hl => ?_
    exact ⟨congrArg (· + 1) hl.1, List.forall_mem_cons.2 ⟨ha, hl.2⟩⟩

end Random

/-! ## What a profile admits -/

/-- A text column of one letter, sorting upwards. -/
def Column.IsLetter (c : Column) : Prop :=
  ∃ n < 26, c = .text (String.singleton (Char.ofNat ('a'.toNat + n)))

namespace Profile

/-- The profile with the given numbers of keys and of values, at least one of either, the given
chance of a hidden row and the given depth of categories. -/
def made (keySpace : UInt32) (valueSpace : UInt64) (ratio : Binary64) (depth : Nat) : Profile :=
  ((({} : Profile).withKeySpace keySpace).withValueSpace valueSpace).withHiddenRatio ratio
    |>.withNesting depth

structure Stocked (p : Profile) : Prop where
  keys : 1 ≤ p.keySpace.toNat
  values : 1 ≤ p.valueSpace.toNat

/-- One of the keys `1:0`, `2:0`, … of the key space. -/
def AdmitsKey (p : Profile) (key : Key) : Prop :=
  1 ≤ key.object.toNat ∧ key.object ≤ p.keySpace ∧ key.ordinal = 0

/-- One letter for each level of nesting, from one level to all of them; without nesting a letter
and a number of the value space that sorts downwards. -/
def AdmitsColumns (p : Profile) (columns : SortKey) : Prop :=
  if 0 < p.nesting then
    1 ≤ columns.length ∧ columns.length ≤ p.nesting ∧ ∀ c ∈ columns, c.IsLetter
  else
    ∃ letter value, letter.IsLetter ∧ value < p.valueSpace ∧
      columns = [letter, (Column.unsigned value).down]

def Admits (p : Profile) : Action → Prop
  | .put key columns _ => p.AdmitsKey key ∧ p.AdmitsColumns columns
  | .erase key | .collapse key | .expand key => p.AdmitsKey key
  | .seek offset => -50 ≤ offset ∧ offset ≤ 50
  | .read count => 1 ≤ count ∧ count ≤ 20

/-- The schema of all sort keys that a profile draws. -/
def schema (p : Profile) : Schema := fun i =>
  if 0 < p.nesting ∨ i = 0 then (.text, false) else (.binary, true)

variable {p : Profile} {a : Action} {columns : SortKey}

theorem stocked_made (keySpace : UInt32) (valueSpace : UInt64) (ratio : Binary64) (depth : Nat) :
    (made keySpace valueSpace ratio depth).Stocked where
  keys := by
    show 1 ≤ (if keySpace ≤ 1 then 1 else keySpace).toNat
    split
    · decide
    · rename_i h
      exact Nat.le_of_lt (UInt32.lt_iff_toNat_lt.1 (UInt32.not_le.1 h))
  values := by
    show 1 ≤ (if valueSpace ≤ 1 then 1 else valueSpace).toNat
    split
    · decide
    · rename_i h
      exact Nat.le_of_lt (UInt64.lt_iff_toNat_lt.1 (UInt64.not_le.1 h))

theorem AdmitsKey.ne_reserved {key : Key} (h : p.AdmitsKey key) : key ≠ .reserved := by
  rintro rfl
  exact absurd h.1 (by decide)

theorem follows_letters {k : SortKey} (h : ∀ c ∈ k, c.IsLetter) :
    k.Follows fun _ => (.text, false) := by
  intro i c hc
  obtain ⟨n, -, rfl⟩ := h c (List.mem_of_getElem? hc)
  rfl

theorem AdmitsColumns.follows (h : p.AdmitsColumns columns) : columns.Follows p.schema := by
  unfold AdmitsColumns at h
  split at h
  · rename_i hn
    have hschema : p.schema = fun _ => (.text, false) := by
      funext i
      exact if_pos (.inl hn)
    rw [hschema]
    exact follows_letters h.2.2
  · rename_i hn
    obtain ⟨letter, value, ⟨n, -, rfl⟩, -, rfl⟩ := h
    refine Schema.follows_cons.2 ⟨(if_pos (.inr rfl)).symm, Schema.follows_cons.2 ⟨?_, ?_⟩⟩
    · exact (if_neg (by simp [hn])).symm
    · exact Schema.follows_nil _

/-- What a profile admits is fit for a table under its schema. -/
theorem Admits.follows (h : p.Admits a) : a.Follows p.schema := by
  cases a with
  | put key columns hidden => exact ⟨h.1.ne_reserved, h.2.follows⟩
  | _ => trivial

/-! ## What a profile draws -/

section

variable {σ : Type} [Source σ]

theorem always_key (h : Source.InRange σ) (hp : p.Stocked) :
    Always p.AdmitsKey (p.key : StateM σ Key) := by
  refine (always_within h .single hp.keys).map fun n hn => ?_
  have hword : (UInt32.ofNat n).toNat = n :=
    UInt32.toNat_ofNat_of_lt' (Nat.lt_of_le_of_lt hn.2 p.keySpace.toNat_lt)
  exact ⟨hword.symm ▸ hn.1, UInt32.le_iff_toNat_le.2 (hword.symm ▸ hn.2), rfl⟩

theorem always_letter (h : Source.InRange σ) {most : Nat} (hmost : most ≤ 26)
    (hpos : 0 < most) :
    Always Column.IsLetter (p.letter most : StateM σ Column) := by
  refine (always_within h .double (Nat.zero_le _)).map fun n hn => ⟨n, ?_, rfl⟩
  omega

theorem always_columns (h : Source.InRange σ) (hp : p.Stocked) :
    Always p.AdmitsColumns (p.columns : StateM σ SortKey) := by
  unfold columns AdmitsColumns
  by_cases hn : 0 < p.nesting
  · simp only [if_pos hn]
    refine (always_within h .double hn).bind fun depth hdepth => ?_
    refine ((always_letter h (by decide) (by decide)).times depth).mono fun k hk => ?_
    exact ⟨hk.1 ▸ hdepth.1, hk.1 ▸ hdepth.2, hk.2⟩
  · simp only [if_neg hn]
    refine (always_letter h (by decide) (by decide)).bind fun letter hletter => ?_
    refine (always_within h .double (Nat.zero_le _)).map fun n hn => ?_
    have hlt : n < p.valueSpace.toNat := Nat.lt_of_le_sub_one hp.values hn.2
    refine ⟨letter, .ofNat n, hletter, ?_, rfl⟩
    rw [UInt64.lt_iff_toNat_lt, UInt64.toNat_ofNat_of_lt' (hlt.trans p.valueSpace.toNat_lt)]
    exact hlt

/-- Whatever number between 0 and 11 the choice falls on, the action is admitted. -/
theorem always_action (h : Source.InRange σ) (hp : p.Stocked) :
    Always p.Admits (p.action : StateM σ Action) := by
  have hkey := always_key h hp
  refine (always_within h .single (Nat.zero_le 11)).bind fun choice _ => ?_
  split
  · refine hkey.bind fun key hkey => (always_columns h hp).bind fun columns hcolumns => ?_
    exact fun s => ⟨hkey, hcolumns⟩
  split
  · exact hkey.map fun key hkey => hkey
  split
  · refine (always_within h .double (Nat.zero_le 100)).map fun n hn => ?_
    simp only [Admits]
    omega
  split
  · exact hkey.map fun key hkey => hkey
  split
  · exact hkey.map fun key hkey => hkey
  · exact (always_within h .double (by decide)).map fun n hn => hn

end

/-! ## Replays -/

/-- What comes of the actions that a profile draws: they are as many as were asked for, each of them
is one that the profile admits, and a table and a plain table that they are replayed on go on
together, with nothing refused and every row in its place. On linked nodes the integrity check finds
no flaw after any of them. -/
structure Replays (p : Profile) (count : Nat) (actions : List Action) : Prop where
  length : actions.length = count
  admits (a : Action) : a ∈ actions → p.Admits a
  follows (a : Action) : a ∈ actions → a.Follows p.schema
  verified (done rest : List Action) : actions = done ++ rest →
    ∃ w, (LinkedTable.empty {} .bytewise).run (done.map Action.command) = some w ∧
      w.StandsFor (Pair.after done).table ∧ w.verify.run = some (.ok ())
  agrees (done rest : List Action) : actions = done ++ rest → (Pair.after done).Agrees
  accepted (done rest : List Action) (a : Action) : actions = done ++ a :: rest →
    (Pair.after done).Answers a

theorem linked_after {done : List Action} (h : ∀ a ∈ done, p.Admits a) :
    (Pair.after done).Linked p.schema :=
  (Pair.linked_empty p.schema).foldl fun a ha => (h a ha).follows

theorem verified_after {done : List Action} (h : ∀ a ∈ done, p.Admits a) :
    ∃ w, (LinkedTable.empty {} .bytewise).run (done.map Action.command) = some w ∧
      w.StandsFor (Pair.after done).table ∧ w.verify.run = some (.ok ()) := by
  have htable : (Pair.after done).table =
      (Table.empty {} .bytewise).run (done.map Action.command) :=
    Pair.table_foldl (fun a ha => (h a ha).follows) Pair.empty
  obtain ⟨w, hw, all, hr⟩ := LinkedTable.exists_run {} .bytewise (done.map Action.command)
  rw [← htable] at hr
  exact ⟨w, hw, ⟨all, hr⟩, hr.verify.trans (congrArg some (linked_after h).ordered.verify_eq)⟩

theorem replays_of_admits {actions : List Action} (h : ∀ a ∈ actions, p.Admits a) :
    p.Replays actions.length actions := by
  have hdone {done rest : List Action} (hs : actions = done ++ rest) :
      ∀ a ∈ done, p.Admits a := fun a ha => h a (hs ▸ List.mem_append_left rest ha)
  constructor
  case length => rfl
  case admits => exact h
  case follows => exact fun a ha => (h a ha).follows
  case verified => exact fun done rest hs => verified_after (hdone hs)
  case agrees => exact fun done rest hs => (linked_after (hdone hs)).agrees
  case accepted =>
    intro done rest a hs
    have ha : p.Admits a := h a (hs ▸ List.mem_append_right done List.mem_cons_self)
    exact (linked_after (hdone hs)).answers ha.follows

/-- Whatever the numbers of keys and of values, the chance of a hidden row and the depth of
categories, and whatever source the draws are made from, as long as it keeps to the ranges. -/
theorem replays {σ : Type} [Source σ] (h : Source.InRange σ) (keySpace : UInt32)
    (valueSpace : UInt64) (ratio : Binary64) (depth count : Nat) (s : σ) :
    (made keySpace valueSpace ratio depth).Replays count
      ((made keySpace valueSpace ratio depth).actions count s).1 := by
  have hdrawn := (always_action h (stocked_made keySpace valueSpace ratio depth)).times count s
  have hall := replays_of_admits hdrawn.2
  rwa [hdrawn.1] at hall

/-- Nested categories over a value space that was given as empty, so that every letter is the same;
half of the rows are put hidden. -/
theorem replays_noValues :
    let p := made 60 0 ⟨0x3fe0000000000000⟩ 3
    let actions := (p.actions 1500 (Stream.ofSeed 5)).1
    Source.InRange Stream ∧ p.Replays 1500 actions ∧
      ∃ w, (LinkedTable.empty {} .bytewise).run (actions.map Action.command) = some w ∧
        w.StandsFor (Pair.after actions).table ∧ w.verify.run = some (.ok ()) := by
  intro p actions
  have h := replays Stream.inRange 60 0 ⟨0x3fe0000000000000⟩ 3 1500 (Stream.ofSeed 5)
  exact ⟨Stream.inRange, h, h.verified actions [] (List.append_nil actions).symm⟩

end Profile

end LiveTable
