import LiveTable.Row

/-!
# Rows with distinct keys

In a list of rows with distinct keys a key splits the list in one way only (`Distinct.split`).
The lemmas here are about such splits, and about the neighbours of a row in the list.
-/

namespace LiveTable

def Distinct (rows : List Entry) : Prop := (rows.map (·.key)).Nodup

def HasKey (rows : List Entry) (key : Key) : Prop := ∃ e ∈ rows, e.key = key

section

variable {rows xs ys : List Entry} {e : Entry} {key : Key}

theorem HasKey.split (h : HasKey rows key) :
    ∃ xs e ys, rows = xs ++ e :: ys ∧ e.key = key := by
  obtain ⟨e, he, hk⟩ := h
  obtain ⟨xs, ys, rfl⟩ := List.append_of_mem he
  exact ⟨xs, e, ys, rfl, hk⟩

theorem hasKey_middle : HasKey (xs ++ e :: ys) e.key := ⟨e, by simp, rfl⟩

theorem mem_middle {a : Entry} : a ∈ xs ++ e :: ys ↔ a = e ∨ a ∈ xs ++ ys := by
  rw [List.mem_append, List.mem_cons, List.mem_append, or_left_comm]

theorem hasKey_append : HasKey (xs ++ ys) key ↔ HasKey xs key ∨ HasKey ys key := by
  simp [HasKey, or_and_right, exists_or]

theorem distinct_cons : Distinct (e :: ys) ↔ ¬ HasKey ys e.key ∧ Distinct ys := by
  simp [Distinct, HasKey]

theorem distinct_middle :
    Distinct (xs ++ e :: ys) ↔ ¬ HasKey (xs ++ ys) e.key ∧ Distinct (xs ++ ys) := by
  have hp : (xs ++ e :: ys).Perm (e :: (xs ++ ys)) := List.perm_middle
  rw [← distinct_cons]
  exact (hp.map (·.key)).nodup_iff

theorem filter_ne_of_not_hasKey (h : ¬ HasKey rows key) : rows.filter (·.key ≠ key) = rows :=
  List.filter_eq_self.2 fun a ha => decide_eq_true fun hk => h ⟨a, ha, hk⟩

theorem Distinct.filter_ne (h : Distinct (xs ++ e :: ys)) :
    (xs ++ e :: ys).filter (·.key ≠ e.key) = xs ++ ys := by
  have hn := filter_ne_of_not_hasKey (distinct_middle.1 h).1
  rw [List.filter_append] at hn
  rw [List.filter_append, List.filter_cons_of_neg (by simp), hn]

theorem Distinct.eq_of_key (h : Distinct rows) {a b : Entry} (ha : a ∈ rows) (hb : b ∈ rows)
    (hk : a.key = b.key) : a = b := by
  obtain ⟨xs, ys, rfl⟩ := List.append_of_mem ha
  rcases mem_middle.1 hb with rfl | hb
  · rfl
  · exact absurd ⟨b, hb, hk.symm⟩ (distinct_middle.1 h).1

theorem Distinct.find?_eq (h : Distinct rows) (he : e ∈ rows) :
    rows.find? (·.key = e.key) = some e := by
  cases hf : rows.find? (·.key = e.key) with
  | none => exact absurd (List.find?_eq_none.1 hf e he) (by simp)
  | some a =>
    have hk : a.key = e.key := by simpa using List.find?_some hf
    rw [h.eq_of_key (List.mem_of_find?_eq_some hf) he hk]

theorem Distinct.span_ne (h : Distinct (xs ++ e :: ys)) :
    (xs ++ e :: ys).takeWhile (·.key ≠ e.key) = xs ∧
      (xs ++ e :: ys).dropWhile (·.key ≠ e.key) = e :: ys := by
  have hn := (distinct_middle.1 h).1
  rw [hasKey_append, not_or] at hn
  have hx : ∀ a ∈ xs, decide (a.key ≠ e.key) = true :=
    fun a ha => decide_eq_true fun hk => hn.1 ⟨a, ha, hk⟩
  rw [List.takeWhile_append_of_pos hx, List.dropWhile_append_of_pos hx,
    List.takeWhile_cons_of_neg (by simp), List.dropWhile_cons_of_neg (by simp)]
  exact ⟨List.append_nil xs, rfl⟩

/-- There is only one way to split distinct rows at a key. -/
theorem Distinct.split {a b : Entry} {xs' ys' : List Entry} (h : Distinct (xs ++ a :: ys))
    (he : xs ++ a :: ys = xs' ++ b :: ys') (hk : a.key = b.key) :
    xs = xs' ∧ a = b ∧ ys = ys' := by
  obtain ⟨ht, hd⟩ := h.span_ne
  obtain ⟨ht', hd'⟩ := (he ▸ h).span_ne
  rw [he, hk] at ht hd
  obtain ⟨hab, hys⟩ := List.cons.inj (hd.symm.trans hd')
  exact ⟨ht.symm.trans ht', hab, hys⟩

theorem Distinct.of_append_right (h : Distinct (xs ++ ys)) : Distinct ys :=
  h.sublist ((List.sublist_append_right xs ys).map _)

theorem Distinct.key_ne (h : Distinct (xs ++ ys)) {a b : Entry} (ha : a ∈ xs) (hb : b ∈ ys) :
    a.key ≠ b.key := by
  rw [Distinct, List.map_append, List.nodup_append] at h
  exact h.2.2 _ (List.mem_map_of_mem ha) _ (List.mem_map_of_mem hb)

theorem Distinct.map_run {zs : List Entry} (h : Distinct (xs ++ (ys ++ zs)))
    (change : Entry → Entry) :
    (xs ++ (ys ++ zs)).map (fun a => if a ∈ ys then change a else a) =
      xs ++ (ys.map change ++ zs) := by
  have hstay {rows : List Entry} (hr : ∀ a ∈ rows, a ∉ ys) :
      rows.map (fun a => if a ∈ ys then change a else a) = rows :=
    (List.map_congr_left fun a ha => if_neg (hr a ha)).trans (List.map_id rows)
  rw [List.map_append, List.map_append,
    hstay fun a ha hy => h.key_ne ha (List.mem_append_left zs hy) rfl,
    hstay fun a ha hy => h.of_append_right.key_ne hy ha rfl,
    List.map_congr_left fun a ha => if_pos ha]

end

/-! ## Changes of visibility -/

/-- The two lists differ in the visibility of rows at most. -/
def SameRows (xs ys : List Entry) : Prop := xs.map (·.toRow) = ys.map (·.toRow)

namespace SameRows

variable {xs ys zs : List Entry}

theorem refl (xs : List Entry) : SameRows xs xs := rfl

theorem append {xs' ys' : List Entry} (h : SameRows xs ys) (h' : SameRows xs' ys') :
    SameRows (xs ++ xs') (ys ++ ys') := by
  rw [SameRows, List.map_append, List.map_append, h, h']

theorem cons (h : SameRows xs ys) (e : Entry) : SameRows (e :: xs) (e :: ys) :=
  congrArg (e.toRow :: ·) h

theorem map {change : Entry → Entry} (hc : ∀ e, (change e).toRow = e.toRow) (xs : List Entry) :
    SameRows (xs.map change) xs := by
  rw [SameRows, List.map_map]
  exact List.map_congr_left fun e _ => hc e

theorem keys (h : SameRows xs ys) : xs.map (·.key) = ys.map (·.key) := by
  have := congrArg (List.map Row.key) h
  rwa [List.map_map, List.map_map] at this

theorem length_eq (h : SameRows xs ys) : xs.length = ys.length := by
  simpa using congrArg List.length h

theorem distinct (h : SameRows xs ys) (hy : Distinct ys) : Distinct xs := by
  rw [Distinct, h.keys]
  exact hy

theorem exists_iff (h : SameRows xs ys) (p : Row → Prop) :
    (∃ e ∈ xs, p e.toRow) ↔ ∃ e ∈ ys, p e.toRow := by
  have hm (zs : List Entry) : (∃ e ∈ zs, p e.toRow) ↔ ∃ r ∈ zs.map (·.toRow), p r := by
    constructor
    · rintro ⟨e, he, hp⟩
      exact ⟨e.toRow, List.mem_map_of_mem he, hp⟩
    · rintro ⟨r, hr, hp⟩
      obtain ⟨e, he, rfl⟩ := List.mem_map.1 hr
      exact ⟨e, he, hp⟩
  rw [hm, hm, h]

theorem hasKey (h : SameRows xs ys) {key : Key} : HasKey xs key ↔ HasKey ys key :=
  h.exists_iff (·.key = key)

end SameRows

end LiveTable
