import LiveTable.PlainTable
import LiveTable.Proofs.Bisect
import LiveTable.Proofs.Table.Ordered
import Mathlib.Data.List.TakeDrop

/-!
# Plain tables with the rows of a table

`plainOf` is the plain table of some rows. What a plain table does to these rows in one pass over
the list is what a table in order does to them in its tree: a row that is put goes to the place
that the descent from the root finds (`Ordered.put_plainOf`), and collapsing and expanding change
and answer the same members (`Sound.collapse_plainOf`, `Sound.expand_plainOf`).
-/

namespace LiveTable

def plainOf (rows : List Entry) : PlainTable := ⟨rows.map Entry.snapshot⟩

namespace PlainTable

variable {t : PlainTable} {key : Key} {upTo after members rest : List Snapshot} {header : Snapshot}

theorem collapse_of_none (h : t.split? key = none) : t.collapse key = none := by
  rw [collapse, h]
  rfl

theorem collapse_of_some (h : t.split? key = some (upTo, header, after))
    (hm : after.span (isUnder header.columns) = (members, rest)) :
    t.collapse key = some (members.map (·.key),
      ⟨upTo ++ members.map (fun r => { r with hidden := true }) ++ rest⟩) := by
  rw [collapse, h]
  simp only [Option.bind_eq_bind, Option.bind_some, hm]
  rfl

theorem expand_of_none (h : t.split? key = none) : t.expand key = none := by
  rw [expand, h]
  rfl

theorem expand_of_hidden (h : t.split? key = some (upTo, header, after))
    (hh : header.hidden = true) : t.expand key = none := by
  rw [expand, h]
  simp only [Option.bind_eq_bind, Option.bind_some, hh]
  rfl

theorem expand_of_some (h : t.split? key = some (upTo, header, after)) (hh : header.hidden = false)
    (hm : after.span (isUnder header.columns) = (members, rest)) {width : Nat}
    (hw : width = (members.head?.map (·.columns.length)).getD 0) :
    t.expand key = some ((members.filter (·.columns.length = width)).map (·.key),
      ⟨upTo ++ members.map (fun r =>
        if r.columns.length = width then { r with hidden := false } else r) ++ rest⟩) := by
  rw [expand, h]
  simp only [Option.bind_eq_bind, Option.bind_some, hh, hm, hw]
  simp

end PlainTable

/-! ## Plain tables of split rows -/

section

variable {rows xs ys : List Entry} {e : Entry} {key : Key}

theorem get?_plainOf (hd : Distinct (xs ++ e :: ys)) :
    (plainOf (xs ++ e :: ys)).get? e.key = some e.snapshot := by
  have hx : xs.find? (·.key = e.key) = none := by
    rw [List.find?_eq_none]
    intro a ha
    simp only [decide_eq_true_eq]
    exact fun hk => (distinct_middle.1 hd).1 ⟨a, List.mem_append_left ys ha, hk⟩
  have hf : (xs ++ e :: ys).find? (·.key = e.key) = some e := by
    rw [List.find?_append, hx, List.find?_cons_of_pos (by simp)]
    rfl
  rw [PlainTable.get?, plainOf, List.find?_map]
  exact congrArg (Option.map Entry.snapshot) hf

theorem get?_plainOf_of_not (hk : ¬ HasKey rows key) : (plainOf rows).get? key = none := by
  rw [PlainTable.get?, plainOf, List.find?_map, Option.map_eq_none_iff, List.find?_eq_none]
  intro a ha
  simp only [Function.comp_apply, decide_eq_true_eq]
  exact fun hak => hk ⟨a, ha, hak⟩

theorem detach_plainOf (hd : Distinct (xs ++ e :: ys)) :
    (plainOf (xs ++ e :: ys)).detach e.key = plainOf (xs ++ ys) := by
  have hx : ∀ s ∈ xs.map Entry.snapshot, ¬ decide (s.key = e.key) = true := by
    intro s hs
    obtain ⟨a, ha, rfl⟩ := List.mem_map.1 hs
    simp only [decide_eq_true_eq]
    exact fun hk => (distinct_middle.1 hd).1 ⟨a, List.mem_append_left ys ha, hk⟩
  rw [PlainTable.detach, plainOf, plainOf, List.map_append, List.map_cons,
    List.eraseP_append_right _ hx, List.eraseP_cons_of_pos (by simp [Entry.snapshot]),
    List.map_append]

theorem predecessor?_plainOf (hd : Distinct (xs ++ e :: ys)) :
    (plainOf (xs ++ e :: ys)).predecessor? e.key = xs.getLast?.map (·.key) := by
  have hp : (plainOf (xs ++ e :: ys)).position? e.key = some xs.length := by
    have hx : (xs.map Entry.snapshot).findIdx? (·.key = e.key) = none := by
      rw [List.findIdx?_eq_none_iff]
      intro s hs
      obtain ⟨a, ha, rfl⟩ := List.mem_map.1 hs
      exact decide_eq_false fun hk =>
        (distinct_middle.1 hd).1 ⟨a, List.mem_append_left ys ha, hk⟩
    rw [PlainTable.position?, plainOf, List.map_append, List.findIdx?_append, hx]
    simp [Entry.snapshot, List.findIdx?_cons]
  rw [PlainTable.predecessor?, hp]
  show (if xs.length = 0 then none
    else ((xs ++ e :: ys).map Entry.snapshot)[xs.length - 1]?.map (·.key)) = _
  rcases List.eq_nil_or_concat xs with rfl | ⟨xs', a, rfl⟩
  · rfl
  · simp [Entry.snapshot]

theorem split?_plainOf (hd : Distinct (xs ++ e :: ys)) :
    (plainOf (xs ++ e :: ys)).split? e.key =
      some ((xs ++ [e]).map Entry.snapshot, e.snapshot, ys.map Entry.snapshot) := by
  obtain ⟨ht, hr⟩ := hd.span_ne
  have hspan : (plainOf (xs ++ e :: ys)).rows.span (·.key ≠ e.key) =
      (xs.map Entry.snapshot, (e :: ys).map Entry.snapshot) := by
    rw [plainOf, List.span_eq_takeWhile_dropWhile, List.takeWhile_map, List.dropWhile_map]
    exact congrArg₂ (fun before rest => (before.map Entry.snapshot, rest.map Entry.snapshot)) ht hr
  rw [PlainTable.split?, hspan, List.map_append]
  rfl

theorem split?_plainOf_of_not (hk : ¬ HasKey rows key) : (plainOf rows).split? key = none := by
  have hall : ∀ a ∈ rows, decide (a.key ≠ key) = true :=
    fun a ha => decide_eq_true fun hak => hk ⟨a, ha, hak⟩
  have hr : rows.dropWhile (·.key ≠ key) = [] := by
    have hd : (rows ++ []).dropWhile (fun a : Entry => a.key ≠ key) = [] :=
      List.dropWhile_append_of_pos hall
    rwa [List.append_nil] at hd
  have hspan : (plainOf rows).rows.span (·.key ≠ key) =
      ((rows.takeWhile (·.key ≠ key)).map Entry.snapshot, []) := by
    rw [plainOf, List.span_eq_takeWhile_dropWhile, List.takeWhile_map, List.dropWhile_map]
    exact congrArg (fun rest => (_, rest.map Entry.snapshot)) hr
  rw [PlainTable.split?, hspan]

end

/-! ## The same rows -/

namespace Table

variable {t : Table} {σ : Schema} {key : Key} {columns : SortKey} {hidden : Bool} {f : Focus}
  {xs ys : List Entry} {e : Entry}

theorem compare_eq_plain (hc : t.collation = .bytewise) : t.compare = PlainTable.compare :=
  congrArg SortKey.compare hc

/-- Bisection finds the gap that the descent from the root comes to. -/
theorem Ordered.attach_plainOf (ho : t.Ordered σ) (hc : t.collation = .bytewise)
    (hk : columns.Follows σ) (key : Key) (hidden : Bool) :
    (plainOf t.entries).attach ⟨key, columns, hidden⟩ =
      plainOf (t.attach key columns hidden).2.entries := by
  have hp : ∀ a ∈ t.entries, (!(PlainTable.compare a.columns columns).isGT) =
      !t.comesBefore columns a := by
    intro a ha
    rw [← compare_eq_plain hc, ho.compare_swap (ho.follows a ha) hk, Ordering.isGT_swap]
    rfl
  have hlead : Leading (fun s : Snapshot => !(PlainTable.compare s.columns columns).isGT)
      (t.entries.map Entry.snapshot) := by
    refine List.pairwise_map.2 ((ho.comesBefore_mono hk).imp_of_mem fun {a b} ha hb hab hpb => ?_)
    have hpb : (!(PlainTable.compare b.columns columns).isGT) = true := hpb
    show (!(PlainTable.compare a.columns columns).isGT) = true
    rw [hp b hb] at hpb
    rw [hp a ha]
    cases hca : t.comesBefore columns a with
    | false => rfl
    | true =>
      rw [hab hca] at hpb
      cases hpb
  have hlower : t.entries.filter (fun a => !(PlainTable.compare a.columns columns).isGT) =
      t.lower columns := by
    rw [ho.lower_eq hk]
    exact List.filter_congr hp
  have hupper : t.entries.filter (fun a => !!(PlainTable.compare a.columns columns).isGT) =
      t.upper columns := by
    rw [ho.upper_eq hk]
    exact List.filter_congr fun a ha => by rw [hp a ha, Bool.not_not]
  rw [PlainTable.attach, plainOf, plainOf, take_bisect hlead, drop_bisect hlead, List.filter_map,
    List.filter_map, entries_attach, List.map_append, List.map_cons, ← hlower, ← hupper]
  rfl

theorem Ordered.put_plainOf (ho : t.Ordered σ) (hs : t.Sound) (hc : t.collation = .bytewise)
    (hr : key ≠ .reserved) (hk : columns.Follows σ) (hidden : Bool) :
    (plainOf t.entries).put key columns hidden =
      plainOf (t.perform (.put key columns hidden)).2.entries := by
  unfold PlainTable.put
  rcases t.perform_put key columns hidden with ⟨he, -⟩ | ⟨-, hf, he⟩ | ⟨f, -, hf, ha, he⟩ |
    ⟨f, -, hf, ha, he⟩
  · exact absurd he hr
  · rw [he, get?_plainOf_of_not (hs.focus?_eq_none_iff.1 hf)]
    exact ho.attach_plainOf hc hk key hidden
  all_goals
    obtain ⟨hsp, rfl⟩ := hs.splits_of_focus? hf
    have hl := entries_of_splits hsp
    have hget : (plainOf t.entries).get? f.key = some f.entry.snapshot := by
      rw [hl]
      exact get?_plainOf (hl ▸ hs.distinct)
    rw [alike, compare_eq_plain hc] at ha
    rw [he, hget]
  · exact if_pos ha
  · refine (if_neg (Bool.eq_false_iff.1 ha)).trans ?_
    rw [hl,
      show (plainOf (f.before ++ f.entry :: f.after)).detach f.key = _ from
        detach_plainOf (hl ▸ hs.distinct), ← entries_detach hsp]
    exact (ho.detach hsp).attach_plainOf hc hk f.key hidden

theorem Sound.erase_plainOf (hs : t.Sound) (key : Key) :
    ((plainOf t.entries).erase key).2 = plainOf (t.perform (.erase key)).2.entries := by
  unfold PlainTable.erase
  rcases t.perform_erase key with ⟨hf, he⟩ | ⟨f, hf, he⟩
  · rw [he, get?_plainOf_of_not (hs.focus?_eq_none_iff.1 hf)]
  · obtain ⟨hsp, rfl⟩ := hs.splits_of_focus? hf
    have hl := entries_of_splits hsp
    have hd : Distinct (f.before ++ f.entry :: f.after) := hl ▸ hs.distinct
    rw [he, hl, show (plainOf (f.before ++ f.entry :: f.after)).get? f.key = _ from get?_plainOf hd]
    refine (detach_plainOf hd).trans ?_
    rw [← entries_detach hsp]
    rfl

theorem isUnder_snapshot (hc : t.collation = .bytewise) (e : Entry) :
    PlainTable.isUnder e.columns ∘ Entry.snapshot = t.isUnder e.columns := by
  funext a
  rw [isUnder, hc]
  rfl

theorem span_isUnder (hc : t.collation = .bytewise) (e : Entry) (ys : List Entry) :
    (ys.map Entry.snapshot).span (PlainTable.isUnder e.columns) =
      ((t.membersIn e ys).map Entry.snapshot, (t.beyondIn e ys).map Entry.snapshot) := by
  rw [List.span_eq_takeWhile_dropWhile, List.takeWhile_map, List.dropWhile_map,
    isUnder_snapshot hc]
  rfl

theorem Sound.collapse_plainOf (hs : t.Sound) (hc : t.collation = .bytewise) (key : Key) :
    (plainOf t.entries).collapse key =
      match t.collapse key with
      | .ok (keys, t') => some (keys, plainOf t'.entries)
      | .error _ => none := by
  cases hf : t.focus? key with
  | none =>
    rw [collapse_of_none hf]
    exact PlainTable.collapse_of_none (split?_plainOf_of_not (hs.focus?_eq_none_iff.1 hf))
  | some f =>
    obtain ⟨hsp, rfl⟩ := hs.splits_of_focus? hf
    have hl := entries_of_splits hsp
    have hplit := hl ▸ split?_plainOf (hl ▸ hs.distinct)
    rw [collapse_of_some hf]
    refine (PlainTable.collapse_of_some hplit (span_isUnder hc f.entry f.after)).trans ?_
    show _ = some (_, plainOf (t.collapsed f).entries)
    rw [entries_collapsed hsp, members_fst hsp]
    simp [plainOf, Entry.snapshot, Entry.hide, Function.comp_def]

theorem snapshot_reveal (width : Nat) (a : Entry) :
    (reveal width a).snapshot =
      if a.snapshot.columns.length = width then { a.snapshot with hidden := false }
      else a.snapshot := by
  unfold reveal
  split
  · rename_i hw
    exact (if_pos hw).symm
  · rename_i hw
    exact (if_neg hw).symm

theorem Sound.expand_plainOf (hs : t.Sound) (hc : t.collation = .bytewise) (key : Key) :
    (plainOf t.entries).expand key =
      match t.expand key with
      | .ok (keys, t') => some (keys, plainOf t'.entries)
      | .error _ => none := by
  cases hf : t.focus? key with
  | none =>
    rw [expand_of_none hf]
    exact PlainTable.expand_of_none (split?_plainOf_of_not (hs.focus?_eq_none_iff.1 hf))
  | some f =>
    obtain ⟨hsp, rfl⟩ := hs.splits_of_focus? hf
    have hl := entries_of_splits hsp
    have hplit := hl ▸ split?_plainOf (hl ▸ hs.distinct)
    cases hh : f.entry.hidden with
    | true =>
      rw [expand_of_hidden hf hh]
      exact PlainTable.expand_of_hidden hplit hh
    | false =>
      have hw : widthIn (t.membersIn f.entry f.after) =
          (((t.membersIn f.entry f.after).map Entry.snapshot).head?.map
            (·.columns.length)).getD 0 := by
        rw [widthIn, List.head?_map, Option.map_map]
        rfl
      rw [expand_of_some hf hh]
      refine (PlainTable.expand_of_some hplit hh (span_isUnder hc f.entry f.after) hw).trans ?_
      show _ = some (_, plainOf (t.expanded f).entries)
      rw [entries_expanded hsp, members_fst hsp, List.filter_map, List.map_map, List.map_map,
        plainOf, List.map_append, List.map_cons, List.map_append, List.map_cons, List.map_append,
        List.map_map]
      simp only [snapshot_reveal, Function.comp_def, List.map_nil, List.append_assoc]
      rfl

end Table

end LiveTable
