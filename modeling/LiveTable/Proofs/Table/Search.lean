import LiveTable.Proofs.Table.Answers
import LiveTable.Proofs.Table.StableSort

/-!
# Searches by sort key

In a table in order the rows that come before a probe are the first ones
(`Ordered.below_append_notBelow`). The descent to the lower bound goes to the first of the others,
hidden or not, and a search compares the probe with that row once more, the other way round: it is
equal to the probe unless no row is (`Ordered.find?_eq_find?`). Of equal rows the first one is the
one that came to its place before the others (`searchesExactly_run`).
-/

namespace LiveTable

theorem Position.behind_first {xs ys : List Entry} (hd : Distinct (xs ++ ys)) :
    (first ys pastEnd).behind (xs ++ ys) = xs := by
  cases ys with
  | nil => exact List.append_nil xs
  | cons e rest => exact behind_row hd

namespace Table

variable {t : Table} {σ : Schema} {probe : SortKey} {l : Ledger}

def below (t : Table) (probe : SortKey) : List Entry :=
  t.entries.filter fun e => (t.compare e.columns probe).isLT

def notBelow (t : Table) (probe : SortKey) : List Entry :=
  t.entries.filter fun e => !(t.compare e.columns probe).isLT

/-! ## The lower bound -/

theorem Ordered.below_append_notBelow (h : t.Ordered σ) (probe : SortKey) :
    t.below probe ++ t.notBelow probe = t.entries := by
  obtain ⟨hbefore, hafter⟩ := Tree.rowsAbove_gap (h.bound_mono probe) []
  have hgap := Tree.toList_gap (fun e => !(t.compare e.columns probe).isLT) t.tree
  rw [hbefore, hafter] at hgap
  simpa [rowsAbove, below, notBelow, entries] using hgap

theorem Ordered.lowerBound_eq (h : t.Ordered σ) (probe : SortKey) :
    t.lowerBound probe = { t with cursor := .first (t.notBelow probe) .pastEnd } := by
  rw [lowerBound, Position.orEnd_eq .right, h.reach_bound]
  rfl

theorem Ordered.currentRank_lowerBound (h : t.Ordered σ) (hs : t.Sound) (probe : SortKey) :
    (t.lowerBound probe).currentRank = visibleCount (t.below probe) := by
  have hmoved : (t.lowerBound probe).Sound := hs.moveTo (t.lowerBound_within probe)
  rw [hmoved.currentRank_eq, h.lowerBound_eq]
  show visibleCount (Position.behind t.entries _) = _
  have hd := hs.distinct
  rw [← h.below_append_notBelow probe] at hd ⊢
  rw [Position.behind_first hd]

/-! ## The first equal row -/

theorem Ordered.compare_ne_eq_of_gt (h : t.Ordered σ) (hp : probe.Follows σ) {a b : Entry}
    (ha : a ∈ t.entries) (hb : b ∈ t.entries) (hab : a.toRow.Precedes t.compare b.toRow)
    (hgt : t.compare a.columns probe = .gt) : t.compare b.columns probe ≠ .eq := by
  have := h.transCmp
  have hle := Ordering.isLE_iff_ne_gt.2 hab.ne_gt
  have hlt : t.compare probe a.columns = .lt := by
    rw [h.compare_swap hp (h.follows a ha), hgt]
    rfl
  rw [h.compare_eq (h.follows a ha)] at hle
  rw [h.compare_eq hp] at hlt
  have hprobe := Std.TransCmp.lt_of_lt_of_isLE hlt hle
  rw [← h.compare_eq hp] at hprobe
  rw [h.compare_swap (h.follows b hb) hp, hprobe]
  decide

/-- The first row that does not come before the probe is equal to it if the probe does not come
before the row, and otherwise no row is equal to it. -/
theorem Ordered.find?_eq_find? (h : t.Ordered σ) (hp : probe.Follows σ) :
    t.find? probe =
      (t.entries.find? fun e => t.compare e.columns probe = .eq).map (·.key) := by
  have hsub : (t.notBelow probe).Sublist t.entries := List.filter_sublist
  have hsorted := h.sorted.sublist hsub
  have hnot : t.entries.find? (fun e => t.compare e.columns probe = .eq) =
      (t.notBelow probe).find? fun e => t.compare e.columns probe = .eq := by
    rw [notBelow, List.find?_filter]
    refine congrArg (List.find? · t.entries) (funext fun e => ?_)
    cases t.compare e.columns probe <;> rfl
  rw [find?_eq, h.reach_bound, ← notBelow, hnot]
  cases hrows : t.notBelow probe with
  | nil => rfl
  | cons e rest =>
    rw [hrows] at hsub hsorted
    have he : e ∈ t.notBelow probe := hrows ▸ List.mem_cons_self
    rw [notBelow, List.mem_filter] at he
    have hswap := h.compare_swap hp (h.follows e he.1)
    cases hc : t.compare e.columns probe with
    | lt =>
      rw [hc] at he
      exact absurd he.2 (by decide)
    | eq =>
      rw [hc] at hswap
      simp [hc, hswap]
    | gt =>
      rw [hc] at hswap
      have hrest : rest.find? (fun a => t.compare a.columns probe = .eq) = none := by
        rw [List.find?_eq_none]
        intro a ha
        simpa using h.compare_ne_eq_of_gt hp he.1 (hsub.subset (List.mem_cons_of_mem e ha))
          ((List.pairwise_cons.1 hsorted).1 a ha) hc
      simp [hc, hswap, hrest]

/-- Of the rows that are equal to a probe the first one came to its place before the others. -/
theorem StablySorted.first_arrived (h : t.StablySorted l) (ho : t.Ordered σ)
    (hp : probe.Follows σ) {e a : Entry}
    (he : t.entries.find? (fun e => t.compare e.columns probe = .eq) = some e)
    (ha : a ∈ t.entries) (hae : a ≠ e) (heq : t.compare a.columns probe = .eq) :
    [e.toRow.line, a.toRow.line].Sublist l := by
  have := ho.transCmp
  obtain ⟨heq', xs, ys, hrows, hxs⟩ := List.find?_eq_some_iff_append.1 he
  have heq' : t.compare e.columns probe = .eq := by simpa using heq'
  have hy : a ∈ ys := by
    rw [hrows, mem_middle, List.mem_append] at ha
    rcases ha with rfl | ha | ha
    · exact absurd rfl hae
    · have hne := hxs a ha
      simp [heq] at hne
    · exact ha
  have hequal : t.compare e.columns a.columns = .eq := by
    have hsame : t.compare probe a.columns = .eq := by
      rw [ho.compare_swap hp (ho.follows a ha), heq]
      rfl
    have hf := ho.follows e (hrows ▸ mem_middle.2 (.inl rfl))
    rw [ho.compare_eq hf] at heq' ⊢
    rw [ho.compare_eq hp] at hsame
    exact Std.TransCmp.eq_trans heq' hsame
  have hsorted := h.sorted
  rw [List.pairwise_map, hrows, List.pairwise_append, List.pairwise_cons] at hsorted
  rcases hsorted.2.1.1 a hy with hlt | ⟨-, hline⟩
  · cases hequal.symm.trans hlt
  · exact hline

/-! ## What searches answer -/

/-- Searches for a probe are exact: the cursor comes to the first row that does not come before it,
past as many visible rows as come before it, and the first row that is equal to it is found if there
is one. -/
structure SearchesExactly (t : Table) (l : Ledger) (probe : SortKey) : Prop where
  split : t.below probe ++ t.notBelow probe = t.entries
  lowerBound : t.perform (.lowerBound probe) =
    (.ok .done, { t with cursor := .first (t.notBelow probe) .pastEnd })
  rank : (t.perform (.lowerBound probe)).2.currentRank = visibleCount (t.below probe)
  find : t.perform (.find probe) = (.ok (.key
    ((t.entries.find? fun e => t.compare e.columns probe = .eq).map (·.key))), t)
  /-- Of the rows that are equal to the probe the one that is found came to its place first. -/
  earliest (e : Entry) : t.entries.find? (fun e => t.compare e.columns probe = .eq) = some e →
    ∀ a ∈ t.entries, a ≠ e → t.compare a.columns probe = .eq →
      [e.toRow.line, a.toRow.line].Sublist l
  /-- Row and probe may be compared either way round. -/
  swap : ∀ e ∈ t.entries, t.compare probe e.columns = (t.compare e.columns probe).swap

/-- Whatever commands there were, as long as all sort keys and the probe follow one schema, searches
are exact. -/
theorem searchesExactly_run {collation : Collation} (h : IsPreorder collation)
    {commands : List Command} (hc : ∀ c ∈ commands, c.Follows σ) (hp : probe.Follows σ)
    (settings : Settings) :
    ((empty settings collation).run commands).SearchesExactly
      (Ledger.after (SortKey.compare collation) commands) probe := by
  have hs := (sound_empty settings collation).run commands
  have ho := (ordered_empty settings h σ).run (sound_empty settings collation) hc
  have hl : StablySorted _ (Ledger.after (SortKey.compare collation) commands) :=
    Chronicled.run ⟨[], .nil, .nil, rfl⟩ (sound_empty settings collation)
      (ordered_empty settings h σ) hc
  refine ⟨ho.below_append_notBelow probe, ?_, ho.currentRank_lowerBound hs probe, ?_,
    fun e he a ha hae heq => hl.first_arrived ho hp he ha hae heq,
    fun e he => ho.compare_swap hp (ho.follows e he)⟩
  · rw [← ho.lowerBound_eq]
    rfl
  · rw [← ho.find?_eq_find? hp]
    rfl

/-- Four rows; two of them have equal sort keys, and the one that came first is hidden. -/
def tiedCommands : List Command :=
  [.put ⟨1, 1⟩ [Column.binary [0]] false, .put ⟨1, 2⟩ [Column.binary [1]] true,
    .put ⟨1, 3⟩ [Column.binary [2]] false, .put ⟨1, 4⟩ [Column.binary [1]] false]

def tiedRows : Table := (empty {} .bytewise).run tiedCommands

/-- A search for the sort key of the two equal rows comes to the hidden one, which is the first. -/
theorem searchesExactly_tiedRows :
    IsPreorder Collation.bytewise ∧ (∀ c ∈ tiedCommands, c.Follows fun _ => (.binary, false)) ∧
      SortKey.Follows [Column.binary [1]] (fun _ => (.binary, false)) ∧
      (tiedRows.perform (.lowerBound [Column.binary [1]])).2.cursor = .row ⟨1, 2⟩ ∧
      (tiedRows.perform (.lowerBound [Column.binary [1]])).2.currentRank = 1 ∧
      tiedRows.perform (.find [Column.binary [1]]) = (.ok (.key (some ⟨1, 2⟩)), tiedRows) := by
  have hk (b : Bytes) : SortKey.Follows [Column.binary b] fun _ => (.binary, false) :=
    Schema.follows_cons.2 ⟨rfl, Schema.follows_nil _⟩
  have hf : ∀ c ∈ tiedCommands, c.Follows fun _ => (.binary, false) := by
    simp only [tiedCommands, List.forall_mem_cons]
    exact ⟨hk _, hk _, hk _, hk _, by simp⟩
  have hsearch : tiedRows.SearchesExactly _ [Column.binary [1]] :=
    searchesExactly_run Collation.isPreorder_bytewise hf (hk _) {}
  have hc : tiedRows.collation = .bytewise := by cbv
  have hrows : tiedRows.entries = [⟨⟨⟨1, 1⟩, [Column.binary [0]], 0⟩, false⟩,
      ⟨⟨⟨1, 2⟩, [Column.binary [1]], 1⟩, true⟩, ⟨⟨⟨1, 4⟩, [Column.binary [1]], 3⟩, false⟩,
      ⟨⟨⟨1, 3⟩, [Column.binary [2]], 2⟩, false⟩] := by cbv
  refine ⟨Collation.isPreorder_bytewise, hf, hk _, ?_, ?_, ?_⟩
  · rw [hsearch.lowerBound, notBelow, compare, hc, hrows]
    rfl
  · rw [hsearch.rank, below, compare, hc, hrows]
    rfl
  · rw [hsearch.find, compare, hc, hrows]
    rfl

end Table

end LiveTable
