import LiveTable.Proofs.Column.Encoding
import LiveTable.Proofs.Table.Listing
import LiveTable.Proofs.Table.StableSort
import LiveTable.Sample

/-!
# The order of sample categories

Categories and their members are named by numbers in four digits, filled up with zeros from the
left. Names of that width are in the order of their numbers (`compare_named`), but the first one that
is wider comes before the one whose number is one less (`compare_named_wide`). The sample is therefore
in sort order as long as four digits suffice for all its numbers, and only then. Whatever the order in
which its rows are put, the table then lists them by their numbers (`categoriesNumbered`).
-/

namespace LiveTable

/-! ## Bytes of text -/

namespace Bytes

theorem toList_loop (bytes : ByteArray) (i : Nat) (acc : List UInt8) :
    ByteArray.toList.loop bytes i acc = acc.reverse ++ bytes.data.toList.drop i := by
  fun_induction ByteArray.toList.loop bytes i acc with
  | case1 i acc h ih =>
    have hi : i < bytes.data.toList.length := h
    rw [ih, List.drop_eq_getElem_cons hi]
    simp [ByteArray.get!, h]
  | case2 i acc h =>
    rw [List.drop_eq_nil_of_le (Nat.le_of_not_lt h), List.append_nil]

theorem toList_toUTF8 (s : String) :
    s.toUTF8.toList = s.toList.flatMap String.utf8EncodeChar := by
  have hs : s.toUTF8 = (s.toList.flatMap String.utf8EncodeChar).toByteArray := by
    rw [← String.ofList_toList (s := s), String.toUTF8_eq_toByteArray, String.toByteArray_ofList,
      String.ofList_toList]
    rfl
  rw [ByteArray.toList, toList_loop, hs, List.toList_data_toByteArray]
  rfl

theorem toList_toUTF8_append (s t : String) :
    (s ++ t).toUTF8.toList = s.toUTF8.toList ++ t.toUTF8.toList := by
  simp only [toList_toUTF8, String.toList_append, List.flatMap_append]

end Bytes

theorem Column.compare_text (s t : String) :
    (text s).compare .bytewise (text t) = Ord.compare s.toUTF8.toList t.toUTF8.toList :=
  (if_neg Bool.false_ne_true).trans (Bytes.compare_then_length ..)

namespace Sample

variable {m n count members : Nat} {a b : SortKey}

/-! ## Numbered names -/

theorem bytes_fourDigits (hn : n < 10000) :
    (fourDigits n).toUTF8.toList = (numeral 10 4 n).map fun d => UInt8.ofNat (48 + d) := by
  have hdigit : ∀ d < 10, String.utf8EncodeChar (Nat.digitChar d) = [UInt8.ofNat (48 + d)] := by
    decide
  have hdigits : (fourDigits n).toList = (numeral 10 4 n).map Nat.digitChar := by
    rw [fourDigits, String.toList_ofList]
    exact replicate_append_toDigits (by decide) hn
  rw [Bytes.toList_toUTF8, hdigits, List.flatMap_map, List.map_eq_flatMap]
  exact List.flatMap_congr fun d hd => hdigit d (lt_of_mem_numeral (by decide) hd)

theorem compare_fourDigits (hm : m < 10000) (hn : n < 10000) :
    Ord.compare (fourDigits m).toUTF8.toList (fourDigits n).toUTF8.toList = Ord.compare m n := by
  have hdigit : ∀ a < 10, ∀ b < 10,
      Ord.compare (UInt8.ofNat (48 + a)) (UInt8.ofNat (48 + b)) = Ord.compare a b := by decide
  rw [bytes_fourDigits hm, bytes_fourDigits hn]
  exact compare_map_numeral (by decide) hdigit hm hn

/-- A word with numbers of four digits is in the order of the numbers. -/
theorem compare_named (word : String) (hm : m < 10000) (hn : n < 10000) :
    Ord.compare (word ++ fourDigits m).toUTF8.toList (word ++ fourDigits n).toUTF8.toList =
      Ord.compare m n := by
  rw [Bytes.toList_toUTF8_append, Bytes.toList_toUTF8_append, Bytes.compare_append_left,
    compare_fourDigits hm hn]

/-- The first number of five digits comes too early. -/
theorem compare_named_wide (word : String) :
    Ord.compare (word ++ fourDigits 9999).toUTF8.toList (word ++ fourDigits 10000).toUTF8.toList =
      .gt := by
  rw [Bytes.toList_toUTF8_append, Bytes.toList_toUTF8_append, Bytes.compare_append_left]
  cbv

/-! ## Categories in order -/

theorem compare_texts_cons (s t : String) (ss ts : List String) :
    SortKey.compare .bytewise (texts (s :: ss)) (texts (t :: ts)) =
      (Ord.compare s.toUTF8.toList t.toUTF8.toList).then
        (SortKey.compare .bytewise (texts ss) (texts ts)) :=
  congrArg (Ordering.then · _) (Column.compare_text s t)

theorem compare_texts_cons_self (s : String) (ss ts : List String) :
    SortKey.compare .bytewise (texts (s :: ss)) (texts (s :: ts)) =
      SortKey.compare .bytewise (texts ss) (texts ts) := by
  have hself : Ord.compare s.toUTF8.toList s.toUTF8.toList = .eq := Std.ReflCmp.compare_self
  rw [compare_texts_cons, hself, Ordering.eq_then]

/-- The sort keys of the categories and their members, one category after the other. -/
def columns (count members : Nat) : List SortKey :=
  (List.range count).flatMap (category · members)

/-- The sort key comes before the other one byte by byte. -/
def Before (a b : SortKey) : Prop := SortKey.compare .bytewise a b = .lt

def NotAfter (a b : SortKey) : Prop := SortKey.compare .bytewise a b ≠ .gt

theorem Before.notAfter (h : Before a b) : NotAfter a b := fun hgt => by cases h.symm.trans hgt

/-- Four digits suffice for the numbers of all categories and members. -/
def FourDigitsSuffice (count members : Nat) : Prop := count = 0 ∨ count ≤ 10000 ∧ members ≤ 10000

theorem pairwise_category (hmembers : members ≤ 10000) (number : Nat) :
    (category number members).Pairwise Before := by
  rw [category, List.pairwise_cons, List.pairwise_map]
  refine ⟨fun k hk => ?_, List.pairwise_lt_range.imp_of_mem fun {m n} hm hn hlt => ?_⟩
  · obtain ⟨m, -, rfl⟩ := List.mem_map.1 hk
    exact compare_texts_cons_self ..
  · rw [List.mem_range] at hm hn
    rw [Before, compare_texts_cons_self, compare_texts_cons,
      compare_named "m" (by omega) (by omega), Nat.compare_eq_lt.2 hlt]
    rfl

theorem mem_category {k : SortKey} (hk : k ∈ category n members) :
    ∃ rest, k = texts (("cat" ++ fourDigits n) :: rest) := by
  rcases List.mem_cons.1 hk with rfl | hk
  · exact ⟨[], rfl⟩
  · obtain ⟨m, -, rfl⟩ := List.mem_map.1 hk
    exact ⟨_, rfl⟩

theorem before_of_lt (hmn : m < n) (hn : n < 10000) (ha : a ∈ category m members)
    (hb : b ∈ category n members) : Before a b := by
  obtain ⟨as, rfl⟩ := mem_category ha
  obtain ⟨bs, rfl⟩ := mem_category hb
  rw [Before, compare_texts_cons, compare_named "cat" (hmn.trans hn) hn, Nat.compare_eq_lt.2 hmn]
  rfl

theorem pairwise_columns (h : FourDigitsSuffice count members) :
    (columns count members).Pairwise Before := by
  rcases h with rfl | ⟨hcount, hmembers⟩
  · exact .nil
  · refine List.pairwise_flatMap.2 ⟨fun number _ => pairwise_category hmembers number, ?_⟩
    refine List.pairwise_lt_range.imp_of_mem fun {m n} _ hn hlt a ha b hb => ?_
    rw [List.mem_range] at hn
    exact before_of_lt hlt (by omega) ha hb

/-- Where a number needs five digits, there are two sort keys in the wrong order. -/
theorem not_pairwise_columns (h : ¬ FourDigitsSuffice count members) :
    ¬ (columns count members).Pairwise NotAfter := by
  intro hpairwise
  obtain ⟨hwithin, hacross⟩ := List.pairwise_flatMap.1 hpairwise
  unfold FourDigitsSuffice at h
  by_cases hcount : 10000 < count
  · -- the headers of two categories
    have hheaders := List.pairwise_iff_getElem.1 hacross 9999 10000
      (by rw [List.length_range]; omega) (by rw [List.length_range]; omega) (by omega)
    rw [List.getElem_range, List.getElem_range] at hheaders
    refine hheaders _ List.mem_cons_self _ List.mem_cons_self ?_
    rw [compare_texts_cons, compare_named_wide]
    rfl
  · -- two members of the first category
    have hmembers := (List.pairwise_cons.1 (hwithin 0 (List.mem_range.2 (by omega)))).2
    have hpair := List.pairwise_iff_getElem.1 (List.pairwise_map.1 hmembers) 9999 10000
      (by rw [List.length_range]; omega) (by rw [List.length_range]; omega) (by omega)
    rw [List.getElem_range, List.getElem_range] at hpair
    refine hpair ?_
    rw [compare_texts_cons_self, compare_texts_cons, compare_named_wide]
    rfl

/-! ## Numbered rows -/

theorem columns_numbered (rows : List SortKey) : (numbered rows).map (·.2) = rows :=
  List.ext_getElem (by simp [numbered]) (by simp [numbered])

theorem keys_numbered (rows : List SortKey) :
    (numbered rows).map (·.1) = (List.range rows.length).map fun i => key (i + 1) :=
  List.ext_getElem (by simp [numbered]) (by simp [numbered])

theorem length_columns (count members : Nat) :
    (columns count members).length = count * (members + 1) := by
  simp [columns, category, List.length_flatMap]

theorem object_key (hn : n < 2 ^ 32) : (key n).object.toNat = n := UInt32.toNat_ofNat_of_lt' hn

theorem key_ne_reserved (hn : n + 1 < 2 ^ 32) : key (n + 1) ≠ .reserved := by
  intro hk
  have hobject := congrArg (·.object.toNat) hk
  simp only [object_key hn] at hobject
  cases hobject

theorem nodup_keys_numbered {rows : List SortKey} (h : rows.length < 2 ^ 32) :
    ((numbered rows).map (·.1)).Nodup := by
  rw [keys_numbered]
  refine List.nodup_range.map_on fun i hi j hj hij => ?_
  rw [List.mem_range] at hi hj
  have hobject := congrArg (·.object.toNat) hij
  simp only [object_key (show i + 1 < 2 ^ 32 by omega),
    object_key (show j + 1 < 2 ^ 32 by omega)] at hobject
  omega

theorem not_reserved_of_mem_numbered {rows : List SortKey} (h : rows.length < 2 ^ 32)
    {row : Key × SortKey} (hr : row ∈ numbered rows) : row.1 ≠ .reserved := by
  have hk := List.mem_map_of_mem (f := (·.1)) hr
  rw [keys_numbered, List.mem_map] at hk
  obtain ⟨i, hi, he⟩ := hk
  rw [List.mem_range] at hi
  exact he ▸ key_ne_reserved (by omega)

/-! ## Putting rows in any order -/

def puts (rows : List (Key × SortKey)) : List Command := rows.map fun row => .put row.1 row.2 false

theorem putAll_eq_run (t : Table) {rows : List (Key × SortKey)}
    (h : ∀ row ∈ rows, row.1 ≠ .reserved) : putAll t rows = (.ok (), t.run (puts rows)) := by
  induction rows generalizing t with
  | nil => rfl
  | cons row rows ih =>
    obtain ⟨hrow, hrows⟩ := List.forall_mem_cons.1 h
    obtain ⟨p, t', he⟩ := t.put_total hrow row.2 false
    have hperform : (t.perform (.put row.1 row.2 false)).2 = t' := by
      rw [Table.perform_of_ok (by rw [Table.answer, he]; rfl)]
    rw [putAll, he, puts, List.map_cons, Table.run_cons, hperform]
    exact ih t' hrows

/-- Rows that are new to a ledger are added to it. -/
theorem foldl_step_puts (cmp : SortKey → SortKey → Ordering) {l rows : Ledger}
    (hn : ((l ++ rows).map (·.1)).Nodup) (h : ∀ row ∈ rows, row.1 ≠ .reserved) :
    (puts rows).foldl (Ledger.step cmp) l = l ++ rows := by
  induction rows generalizing l with
  | nil => exact (List.append_nil l).symm
  | cons row rows ih =>
    obtain ⟨hrow, hrows⟩ := List.forall_mem_cons.1 h
    have hnew : l.find? (·.1 = row.1) = none := by
      rw [List.map_append, List.map_cons] at hn
      refine List.find?_eq_none.2 fun line hline => ?_
      have hk := (List.nodup_append.1 hn).2.2 line.1 (List.mem_map_of_mem hline) row.1
        List.mem_cons_self
      simpa using hk
    have hplace : l.place cmp row.1 row.2 = l ++ [row] := by
      rw [Ledger.place, if_neg hrow, hnew]
    rw [List.append_cons] at hn ⊢
    rw [puts, List.map_cons, List.foldl_cons, Ledger.step, hplace]
    exact ih hn hrows

theorem texts_follows (parts : List String) : (texts parts).Follows fun _ => (.text, false) := by
  intro i c hc
  rw [texts, List.getElem?_map, Option.map_eq_some_iff] at hc
  obtain ⟨part, -, rfl⟩ := hc
  rfl

/-- Rows of different keys make a table that is their stable sort. -/
theorem stablySorted_puts {rows : List (Key × SortKey)} (hn : (rows.map (·.1)).Nodup)
    (h : ∀ row ∈ rows, row.1 ≠ .reserved) {σ : Schema} (hf : ∀ row ∈ rows, row.2.Follows σ) :
    ((Table.empty {} .bytewise).run (puts rows)).StablySorted rows := by
  have hcommands : ∀ c ∈ puts rows, c.Follows σ := by
    intro c hc
    obtain ⟨row, hrow, rfl⟩ := List.mem_map.1 hc
    exact hf row hrow
  have hsorted : ((Table.empty {} .bytewise).run (puts rows)).StablySorted
      ((puts rows).foldl (Ledger.step (SortKey.compare .bytewise)) []) :=
    Table.Chronicled.run ⟨[], .nil, .nil, rfl⟩ (Table.sound_empty {} .bytewise)
      (Table.ordered_empty {} Collation.isPreorder_bytewise σ) hcommands
  rwa [foldl_step_puts (l := []) _ hn h] at hsorted

theorem eq_of_keys_eq {l l' : Ledger} (hp : l.Perm l') (hn : (l'.map (·.1)).Nodup)
    (hk : l.map (·.1) = l'.map (·.1)) : l = l' := by
  refine List.ext_getElem hp.length_eq fun i hi hi' => ?_
  refine List.inj_on_of_nodup_map hn (hp.subset (List.getElem_mem hi)) (List.getElem_mem hi') ?_
  have hkey := List.getElem_of_eq hk (by rwa [List.length_map])
  rwa [List.getElem_map, List.getElem_map] at hkey

/-- Rearranged lines are the same ones if no two of them have changed places. -/
theorem eq_of_pairwise_before {σ : Schema} {l l' : Ledger} (hp : l.Perm l')
    (hf : ∀ row ∈ l', row.2.Follows σ)
    (hl : l.Pairwise fun a b => NotAfter a.2 b.2)
    (hl' : l'.Pairwise fun a b => Before a.2 b.2) : l = l' := by
  have hgt {a b : Key × SortKey} (ha : a ∈ l') (hb : b ∈ l') (h : Before a.2 b.2) :
      SortKey.compare .bytewise b.2 a.2 = .gt := by
    have hswap := Schema.compare_swap Collation.isPreorder_bytewise σ b.2 a.2
    rw [← Schema.compare_eq Collation.isPreorder_bytewise (hf b hb),
      ← Schema.compare_eq Collation.isPreorder_bytewise (hf a ha), h] at hswap
    exact hswap
  have hle : l'.Pairwise fun a b => NotAfter a.2 b.2 := hl'.imp Before.notAfter
  refine hp.eq_of_pairwise (fun a b ha hb hab hba => ?_) hl hle
  obtain ⟨i, hi, rfl⟩ := List.getElem_of_mem (hp.subset ha)
  obtain ⟨j, hj, rfl⟩ := List.getElem_of_mem hb
  rw [List.pairwise_iff_getElem] at hl'
  rcases Nat.lt_trichotomy i j with hlt | rfl | hlt
  · exact absurd (hgt (hp.subset ha) hb (hl' i j hi hj hlt)) hba
  · rfl
  · exact absurd (hgt hb (hp.subset ha) (hl' j i hj hi hlt)) hab

/-- A stable sort of lines, rearranged, lists their keys as they stand if the lines stand in order,
and does not if two of them stand the wrong way round. -/
theorem allRows_of_stablySorted {σ : Schema} {u : Table} {l l' : Ledger} (hs : u.Sound)
    (hu : u.StablySorted l) (hc : u.collation = .bytewise) (hp : l.Perm l')
    (hf : ∀ row ∈ l', row.2.Follows σ) :
    ((u.allRows true).1 = l'.map (·.1) → l'.Pairwise fun a b => NotAfter a.2 b.2) ∧
      ((l'.Pairwise fun a b => Before a.2 b.2) → (u.allRows true).1 = l'.map (·.1)) := by
  have hperm := hu.perm.trans hp
  have hkeys : (l'.map (·.1)).Nodup := (hp.map _).nodup_iff.1 hu.keys
  have hall : (u.allRows true).1 = (u.entries.map fun e => (e.key, e.columns)).map (·.1) := by
    rw [hs.allRows_fst, List.map_map]
    simp
  have hsorted : (u.entries.map fun e => (e.key, e.columns)).Pairwise fun a b =>
      NotAfter a.2 b.2 := by
    refine hu.sorted.imp fun {a b} hab => ?_
    rw [Table.compare, hc] at hab
    rcases hab with hlt | ⟨heq, -⟩
    · exact Before.notAfter hlt
    · rw [NotAfter, heq]
      decide
  rw [hall]
  refine ⟨fun hlisted => ?_, fun hbefore => ?_⟩
  · rwa [eq_of_keys_eq hperm hkeys hlisted] at hsorted
  · rw [eq_of_pairwise_before hperm hf hsorted hbefore]

/-! ## The sample -/

/-- What there is to know about the order of a sample of categories. -/
structure CategoriesNumbered (count members : Nat) : Prop where
  length : (categories count members).length = count * (members + 1)
  keys : (categories count members).map (fun row => (row.1.object.toNat, row.1.ordinal.toNat)) =
    (List.range (count * (members + 1))).map fun i => (i + 1, 0)
  increasing : (categories count members).Pairwise (fun a b => Before a.2 b.2) ↔
    FourDigitsSuffice count members
  /-- Whatever the order in which the rows are put, none of them is refused, and the table lists them
  by their numbers as long as four digits suffice. -/
  listed (rows : List (Key × SortKey)) : rows.Perm (categories count members) →
    ∃ u, putAll (.empty {} .bytewise) rows = (.ok (), u) ∧
      ((u.allRows true).1 = (categories count members).map (·.1) ↔
        FourDigitsSuffice count members)

theorem pairwise_categories_iff {R : SortKey → SortKey → Prop} :
    (categories count members).Pairwise (fun a b => R a.2 b.2) ↔
      (columns count members).Pairwise R := by
  rw [← columns_numbered (columns count members), List.pairwise_map]
  rfl

theorem follows_of_mem_categories {row : Key × SortKey} (hr : row ∈ categories count members) :
    row.2.Follows fun _ => (.text, false) := by
  have hcolumns := List.mem_map_of_mem (f := (·.2)) hr
  rw [categories, columns_numbered, List.mem_flatMap] at hcolumns
  obtain ⟨number, -, hk⟩ := hcolumns
  obtain ⟨rest, he⟩ := mem_category hk
  exact he ▸ texts_follows _

theorem allRows_puts_iff (hsize : count * (members + 1) < 2 ^ 32) {rows : List (Key × SortKey)}
    (hp : rows.Perm (categories count members)) :
    ((((Table.empty {} .bytewise).run (puts rows)).allRows true).1 =
      (categories count members).map (·.1)) ↔ FourDigitsSuffice count members := by
  have hlength : (columns count members).length < 2 ^ 32 := by rwa [length_columns]
  have hkeys : ((categories count members).map (·.1)).Nodup := nodup_keys_numbered hlength
  have hu := stablySorted_puts ((hp.map (·.1)).nodup_iff.2 hkeys)
    (fun row hr => not_reserved_of_mem_numbered hlength (hp.subset hr))
    (fun row hr => follows_of_mem_categories (hp.subset hr))
  obtain ⟨hlisted, hordered⟩ := allRows_of_stablySorted
    ((Table.sound_empty {} .bytewise).run (puts rows)) hu (Table.collation_run ..) hp
    fun _ => follows_of_mem_categories
  refine ⟨fun h => ?_, fun hfour => hordered (pairwise_categories_iff.2 (pairwise_columns hfour))⟩
  by_contra hfive
  exact not_pairwise_columns hfive (pairwise_categories_iff.1 (hlisted h))

/-- The keys of the sample count its rows. It is in sort order, and the table lists it in that order,
just if four digits suffice for all its numbers. -/
theorem categoriesNumbered (hsize : count * (members + 1) < 2 ^ 32) :
    CategoriesNumbered count members := by
  have hlength : (columns count members).length < 2 ^ 32 := by rwa [length_columns]
  refine ⟨?_, ?_, ?_, fun rows hp => ?_⟩
  · rw [categories, length_numbered]
    exact length_columns count members
  · have hkeys := congrArg (List.map fun k : Key => (k.object.toNat, k.ordinal.toNat))
      (keys_numbered (columns count members))
    rw [List.map_map, List.map_map, length_columns] at hkeys
    refine hkeys.trans (List.map_congr_left fun i hi => Prod.ext ?_ rfl)
    rw [List.mem_range] at hi
    exact object_key (by omega)
  · rw [pairwise_categories_iff]
    refine ⟨fun h => ?_, pairwise_columns⟩
    by_contra hfive
    exact not_pairwise_columns hfive (h.imp Before.notAfter)
  · exact ⟨_, putAll_eq_run _ fun row hr => not_reserved_of_mem_numbered hlength (hp.subset hr),
      allRows_puts_iff hsize hp⟩

/-- Ten thousand categories of ten thousand members are listed by their numbers when they are put in
reverse. -/
theorem categoriesNumbered_tenThousand :
    10000 * (10000 + 1) < 2 ^ 32 ∧
      (categories 10000 10000).Pairwise (fun a b => Before a.2 b.2) ∧
      ∃ u, putAll (.empty {} .bytewise) (categories 10000 10000).reverse = (.ok (), u) ∧
        (u.allRows true).1 = (categories 10000 10000).map (·.1) := by
  have hsize : 10000 * (10000 + 1) < 2 ^ 32 := by decide
  have hfour : FourDigitsSuffice 10000 10000 := .inr ⟨by decide, by decide⟩
  have hnumbered := categoriesNumbered hsize
  obtain ⟨u, hu, hlisted⟩ := hnumbered.listed _ (List.reverse_perm _)
  exact ⟨hsize, hnumbered.increasing.2 hfour, u, hu, hlisted.2 hfour⟩

/-- One category more is one too many. The sample is not in sort order, and the table does not list
its rows by their numbers. -/
theorem not_categories_in_order :
    10001 * (0 + 1) < 2 ^ 32 ∧
      ¬ (categories 10001 0).Pairwise (fun a b => Before a.2 b.2) ∧
      ∃ u, putAll (.empty {} .bytewise) (categories 10001 0) = (.ok (), u) ∧
        (u.allRows true).1 ≠ (categories 10001 0).map (·.1) := by
  have hsize : 10001 * (0 + 1) < 2 ^ 32 := by decide
  have hfive : ¬ FourDigitsSuffice 10001 0 := by
    rintro (hnone | ⟨hcount, -⟩)
    · cases hnone
    · exact absurd hcount (by decide)
  have hlength : (columns 10001 0).length < 2 ^ 32 := by rwa [length_columns]
  refine ⟨hsize, fun h => ?_, _,
    putAll_eq_run _ fun row hr => not_reserved_of_mem_numbered hlength hr,
    mt (allRows_puts_iff hsize (.refl _)).1 hfive⟩
  exact not_pairwise_columns hfive ((pairwise_categories_iff.1 h).imp Before.notAfter)

end Sample

end LiveTable
