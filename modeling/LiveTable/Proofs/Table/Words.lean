import LiveTable.Proofs.Table.Bookmark
import LiveTable.Proofs.Table.Rank
import Mathlib

/-!
# Ranks in words

Visible rows are counted in words of 32 bits. `add?` and `sub?` are the operations on words that
give nothing where the exact result is not a word. Three walks are repeated in this arithmetic: the
recount of a cell from those below it, the walk from a row up to the root that adds up its rank, and
the descent to the row of a rank. In a sound tree of fewer than 2 ^ 32 rows none of them fails, and
they come to the exact counts (`ranksExactly_of_reachable`): what is subtracted is part of what it
is subtracted from, and what is added up counts different rows.
-/

namespace LiveTable

/-! ## Words -/

namespace Word

def ofNat? (n : Nat) : Option UInt32 := if n < 2 ^ 32 then some (.ofNat n) else none

def add? (a b : UInt32) : Option UInt32 :=
  if a.toNat + b.toNat < 2 ^ 32 then some (a + b) else none

/-- The difference of two words, if it is not negative. -/
def sub? (a b : UInt32) : Option UInt32 := if b ≤ a then some (a - b) else none

variable {m n : Nat} {a b : UInt32}

theorem toNat_ofNat (h : n < 2 ^ 32) : (UInt32.ofNat n).toNat = n := UInt32.toNat_ofNat_of_lt' h

theorem ofNat?_eq (h : n < 2 ^ 32) : ofNat? n = some (.ofNat n) := if_pos h

theorem add?_ofNat (h : m + n < 2 ^ 32) : add? (.ofNat m) (.ofNat n) = some (.ofNat (m + n)) := by
  have hfits : (UInt32.ofNat m).toNat + (UInt32.ofNat n).toNat < 2 ^ 32 := by
    rw [toNat_ofNat (by omega), toNat_ofNat (by omega)]
    exact h
  rw [add?, if_pos hfits, UInt32.ofNat_add]

theorem sub?_eq (h : b ≤ a) : ∃ c, sub? a b = some c ∧ c.toNat = a.toNat - b.toNat :=
  ⟨a - b, if_pos h, UInt32.toNat_sub_of_le _ _ h⟩

theorem sub?_ofNat (h : n ≤ m) (hm : m < 2 ^ 32) :
    sub? (.ofNat m) (.ofNat n) = some (.ofNat (m - n)) := by
  have hle : UInt32.ofNat n ≤ UInt32.ofNat m := by
    rw [UInt32.le_iff_toNat_le, toNat_ofNat hm, toNat_ofNat (by omega)]
    exact h
  rw [sub?, if_pos hle, UInt32.ofNat_sub h]

end Word

/-! ## Walks in words -/

/-- The walk from a subtree that counts `below` up to the root, on which `rank` rows have been
counted already. -/
def rankAboveInWords : List Crumb → UInt32 → UInt32 → Option UInt32
  | [], _, rank => some rank
  | c :: above, below, rank => do
    let whole ← Word.ofNat? c.cell.visible
    match c.side with
    | .left => rankAboveInWords above whole rank
    | .right =>
      let beyond ← Word.sub? whole below
      let rank ← Word.add? rank beyond
      rankAboveInWords above whole rank

def Focus.rankInWords (f : Focus) : Option UInt32 := do
  let below ← Word.ofNat? f.cell.visible
  let rank ← Word.ofNat? f.left.visible
  rankAboveInWords f.above below rank

def Focus.recountInWords (f : Focus) : Option UInt32 := do
  let left ← Word.ofNat? f.left.visible
  let right ← Word.ofNat? f.right.visible
  let below ← Word.add? left right
  let own ← Word.ofNat? f.entry.weight
  Word.add? own below

/-- The descent to the visible row of a rank, counted in words. -/
def Tree.selectInWords : Tree → UInt32 → List Crumb → Option (Option Focus)
  | nil, _, _ => some none
  | node l c r, rank, above => do
    let left ← Word.ofNat? l.visible
    if rank < left then l.selectInWords rank (⟨.left, c, r⟩ :: above)
    else
      let rest ← Word.sub? rank left
      if c.hidden then r.selectInWords rest (⟨.right, c, l⟩ :: above)
      else if rest = 0 then some (some ⟨l, c, r, above⟩)
      else
        let rest ← Word.sub? rest 1
        r.selectInWords rest (⟨.right, c, l⟩ :: above)

theorem Tree.Counted.visible_le {t : Tree} (h : t.Counted) : t.visible ≤ t.toList.length := by
  rw [h.visible_eq]
  exact List.countP_le_length

theorem length_le_plugAll (above : List Crumb) (t : Tree) :
    t.toList.length ≤ (plugAll above t).toList.length := by
  rw [toList_plugAll]
  simp only [List.length_append]
  omega

theorem Crumb.visible_le {c : Crumb} {t : Tree} (h : (c.plug t).Counted) :
    t.visible ≤ c.cell.visible := by
  obtain ⟨side, cell, sibling⟩ := c
  cases side with
  | left =>
    obtain ⟨hleft, -, -, hsum⟩ := h
    rw [hleft.visible_eq, hsum]
    omega
  | right =>
    obtain ⟨-, hright, -, hsum⟩ := h
    rw [hright.visible_eq, hsum]
    omega

/-- On the way up no sum exceeds the rank that the walk comes to. -/
theorem rankAboveInWords_eq {above : List Crumb} {t : Tree} {rank : Nat}
    (h : (plugAll above t).Sound) (hl : (plugAll above t).toList.length < 2 ^ 32)
    (hr : rank + rankAbove above t.visible < 2 ^ 32) :
    rankAboveInWords above (.ofNat t.visible) (.ofNat rank) =
      some (.ofNat (rank + rankAbove above t.visible)) := by
  induction above generalizing t rank with
  | nil => rfl
  | cons c cs ih =>
    have hc : (c.plug t).Sound := sound_of_plugAll cs h
    have hbelow : t.visible ≤ c.cell.visible := Crumb.visible_le hc.counted
    have hfits : c.cell.visible < 2 ^ 32 := by
      have hwhole := hc.counted.visible_le
      have hlength : _ ≤ (plugAll (c :: cs) t).toList.length := length_le_plugAll cs (c.plug t)
      rw [c.visible_plug t] at hwhole
      omega
    have hnext (rank : Nat) (hrank : rank + rankAbove cs c.cell.visible < 2 ^ 32) :
        rankAboveInWords cs (.ofNat c.cell.visible) (.ofNat rank) =
          some (.ofNat (rank + rankAbove cs c.cell.visible)) := by
      rw [← c.visible_plug t] at hrank ⊢
      exact ih h hl hrank
    simp only [rankAboveInWords, rankAbove, Word.ofNat?_eq hfits, Option.bind_eq_bind,
      Option.bind_some] at hr ⊢
    obtain ⟨side, cell, sibling⟩ := c
    cases side with
    | left =>
      simp only [Nat.zero_add] at hr ⊢
      exact hnext rank hr
    | right =>
      simp only [← Nat.add_assoc] at hr ⊢
      have hsum : rank + (cell.visible - t.visible) < 2 ^ 32 := by omega
      simp only [Word.sub?_ofNat hbelow hfits, Word.add?_ofNat hsum, Option.bind_some]
      exact hnext _ hr

/-- The rank of a row of fewer than 2 ^ 32 is counted without overflow. -/
theorem Focus.rankInWords_eq {f : Focus} (h : f.plug.Sound) (hl : f.plug.toList.length < 2 ^ 32) :
    f.rankInWords = some (.ofNat f.rank) ∧ f.rank < 2 ^ 32 := by
  have hs : f.subtree.Sound := sound_of_plugAll f.above h
  have hbelow : f.cell.visible ≤ f.subtree.toList.length := hs.counted.visible_le
  have hleft : f.left.visible ≤ f.left.toList.length := hs.left.counted.visible_le
  have hlength : f.subtree.toList.length ≤ f.plug.toList.length := length_le_plugAll f.above _
  have hsides : f.left.toList.length ≤ f.subtree.toList.length := by simp [subtree]
  have hrank : f.rank < 2 ^ 32 := by
    have hbefore : visibleCount f.before ≤ f.before.length := List.countP_le_length
    rw [f.toList_plug, List.length_append] at hl
    rw [Focus.rank_eq h]
    omega
  have hwalk : rankAboveInWords f.above (.ofNat f.cell.visible) (.ofNat f.left.visible) =
      some (.ofNat f.rank) := rankAboveInWords_eq (t := f.subtree) h hl hrank
  have hcell : f.cell.visible < 2 ^ 32 := by omega
  refine ⟨?_, hrank⟩
  simp only [rankInWords, Word.ofNat?_eq hcell, Word.ofNat?_eq (show f.left.visible < _ by omega),
    Option.bind_eq_bind, Option.bind_some]
  exact hwalk

/-- A cell is counted again without overflow, in whatever tree it is being put together, as soon as
what is below it has been counted. -/
theorem Focus.recountInWords_eq {f : Focus} (h : f.subtree.Counted)
    (hl : f.subtree.toList.length < 2 ^ 32) :
    f.recountInWords = some (.ofNat f.cell.visible) ∧ f.cell.visible < 2 ^ 32 := by
  have hcell : f.cell.visible ≤ f.subtree.toList.length := h.visible_le
  have hsum : f.cell.visible = f.entry.weight + (f.left.visible + f.right.visible) := by
    rw [h.1.visible_eq, h.2.1.visible_eq]
    exact h.2.2.2
  have hfits : f.cell.visible < 2 ^ 32 := by omega
  refine ⟨?_, hfits⟩
  rw [hsum] at hfits ⊢
  simp only [recountInWords, Word.ofNat?_eq (show f.left.visible < _ by omega),
    Word.ofNat?_eq (show f.right.visible < _ by omega),
    Word.ofNat?_eq (show f.entry.weight < _ by omega), Option.bind_eq_bind, Option.bind_some,
    Word.add?_ofNat (show f.left.visible + f.right.visible < _ by omega), Word.add?_ofNat hfits]

/-- What is subtracted on the way down has been found to be no more than the rank that is left. -/
theorem Tree.Counted.selectInWords_eq {t : Tree} (h : t.Counted) (hl : t.toList.length < 2 ^ 32)
    (rank : UInt32) (above : List Crumb) :
    t.selectInWords rank above = some (t.select rank.toNat above) := by
  induction t generalizing rank above with
  | nil => rfl
  | node l c r ihl ihr =>
    rw [toList_node, List.length_append, List.length_cons] at hl
    have hleft : l.visible < 2 ^ 32 := Nat.lt_of_le_of_lt h.1.visible_le (by omega)
    have hlt : rank < UInt32.ofNat l.visible ↔ rank.toNat < l.visible := by
      rw [UInt32.lt_iff_toNat_lt, Word.toNat_ofNat hleft]
    simp only [selectInWords, select, Word.ofNat?_eq hleft, Option.bind_eq_bind, Option.bind_some,
      hlt]
    by_cases hr : rank.toNat < l.visible
    · rw [if_pos hr, if_pos hr]
      exact ihl h.1 (by omega) rank _
    obtain ⟨rest, hrest, hsub⟩ := Word.sub?_eq (UInt32.not_lt.1 fun hn => hr (hlt.1 hn))
    rw [Word.toNat_ofNat hleft] at hsub
    have hzero : rest = 0 ↔ rank.toNat = l.visible := by
      rw [← UInt32.toNat_inj, hsub]
      show _ = 0 ↔ _
      omega
    simp only [if_neg hr, hrest, Option.bind_some, ← hsub, hzero]
    by_cases hh : c.hidden
    · rw [if_pos hh, if_pos hh]
      exact ihr h.2.1 (by omega) rest _
    rw [if_neg hh, if_neg hh]
    by_cases hhere : rank.toNat = l.visible
    · rw [if_pos hhere, if_pos hhere]
    have hone : 1 ≤ rest := by
      rw [UInt32.le_iff_toNat_le, hsub]
      show 1 ≤ _
      omega
    obtain ⟨rest', hrest', hsub'⟩ := Word.sub?_eq hone
    simp only [if_neg hhere, hrest', Option.bind_some]
    rw [ihr h.2.1 (by omega) rest' _, hsub']
    rfl

namespace Table

variable {t : Table} {p : Position}

def rankInWords (t : Table) : Position → Option UInt32
  | .beforeFirst => some 0
  | .row key => (t.focus? key).bind Focus.rankInWords
  | .pastEnd => Word.ofNat? t.visible

def selectInWords (t : Table) (rank : UInt32) : Option Position :=
  (t.tree.selectInWords rank []).map .orEnd

theorem Sound.rankInWords_eq (h : t.Sound) (hl : t.size < 2 ^ 32) (hp : p.Within t.entries) :
    t.rankInWords p = some (.ofNat (t.rankOf p)) ∧ t.rankOf p < 2 ^ 32 := by
  rw [h.size_eq] at hl
  cases p with
  | beforeFirst => exact ⟨rfl, Nat.two_pow_pos 32⟩
  | pastEnd =>
    have hfits : t.visible < 2 ^ 32 := Nat.lt_of_le_of_lt h.tree.counted.visible_le hl
    exact ⟨Word.ofNat?_eq hfits, hfits⟩
  | row key =>
    obtain ⟨f, xs, e, ys, hf, hs, rfl⟩ := h.focus?_of_hasKey hp
    simp only [rankInWords, rankOf, hf, Option.bind_some, Option.map_some, Option.getD_some]
    exact Focus.rankInWords_eq (hs.plug ▸ h.tree) (hs.plug ▸ hl)

theorem Sound.selectInWords_eq (h : t.Sound) (hl : t.size < 2 ^ 32) (rank : UInt32) :
    t.selectInWords rank = some (t.select rank.toNat) := by
  rw [h.size_eq] at hl
  rw [selectInWords, h.tree.counted.selectInWords_eq hl, Option.map_some, select]

theorem Sound.recountInWords_eq (h : t.Sound) (hl : t.size < 2 ^ 32) {f : Focus}
    (hf : f.plug = t.tree) :
    f.recountInWords = some (.ofNat f.cell.visible) ∧ f.cell.visible < 2 ^ 32 := by
  have hplug : f.plug.Sound := hf ▸ h.tree
  have hs : f.subtree.Sound := sound_of_plugAll f.above hplug
  have hlength : f.subtree.toList.length ≤ f.plug.toList.length := length_le_plugAll f.above _
  rw [h.size_eq, entries, ← hf] at hl
  exact Focus.recountInWords_eq hs.counted (Nat.lt_of_le_of_lt hlength hl)

theorem Sound.select_rankOf (h : t.Sound) {xs ys : List Entry} {e : Entry}
    (he : t.entries = xs ++ e :: ys) (hv : e.hidden = false) :
    t.select (t.rankOf (.row e.key)) = .row e.key := by
  rw [h.rankOf_row he]
  have hlt : visibleCount xs < t.visible := by
    rw [h.visible_eq, he, visibleCount_append, visibleCount_cons, Entry.weight, hv]
    simp only [Bool.false_eq_true, if_false]
    omega
  obtain ⟨a, ha, hranked⟩ := h.select_rankedAt hlt
  rw [ha, hranked.unique ⟨xs, ys, he, hv, rfl⟩]

/-- Ranks are numbers of visible rows, ranks and selections undo each other, and words of 32 bits
are enough to count in as long as there are no more rows than words. -/
structure RanksExactly (t : Table) : Prop where
  within : t.cursor.Within t.entries ∧ ∀ b ∈ t.bookmarks, b.position.Within t.entries
  current : t.currentRank = visibleCount (t.cursor.behind t.entries)
  bookmark (b : Bookmark) : b ∈ t.bookmarks → t.resolve b.mark =
    .ok ⟨visibleCount (b.position.behind t.entries),
      visibleCount (b.position.behind t.entries) ≠ b.rank⟩
  row (xs : List Entry) (e : Entry) (ys : List Entry) : t.entries = xs ++ e :: ys →
    t.rankOf (.row e.key) = visibleCount xs
  ends : t.rankOf .beforeFirst = 0 ∧ t.rankOf .pastEnd = visibleCount t.entries
  select_rank (e : Entry) : e ∈ t.entries → e.hidden = false →
    t.select (t.rankOf (.row e.key)) = .row e.key
  rank_select (rank : Nat) : rank < visibleCount t.entries →
    ∃ e ∈ t.entries, e.hidden = false ∧ t.select rank = .row e.key ∧ t.rankOf (.row e.key) = rank
  rank_fits : t.size < 2 ^ 32 → ∀ p, p.Within t.entries →
    ∃ word, t.rankInWords p = some word ∧ word.toNat = t.rankOf p
  select_fits : t.size < 2 ^ 32 → ∀ word, t.selectInWords word = some (t.select word.toNat)
  recount_fits : t.size < 2 ^ 32 → ∀ f : Focus, f.plug = t.tree →
    ∃ word, f.recountInWords = some word ∧ word.toNat = f.cell.visible
  /-- Nor does a recount overflow at a cell that is put together while the tree is rebuilt. -/
  rebuild_fits : t.size < 2 ^ 32 → ∀ f : Focus, f.subtree.Counted →
    f.subtree.toList.length ≤ t.size →
      ∃ word, f.recountInWords = some word ∧ word.toNat = f.cell.visible

/-- Ranks count the visible rows before a position, and do so without overflow. -/
theorem ranksExactly_of_reachable (h : t.Reachable) : t.RanksExactly := by
  have hs := h.sound
  refine ⟨⟨hs.cursor, hs.bookmarks⟩, hs.currentRank_eq, fun b hb => ?_,
    fun xs e ys he => hs.rankOf_row he, ⟨rfl, hs.visible_eq⟩, fun e he hv => ?_, fun rank hr => ?_,
    fun hl p hp => ?_, fun hl word => hs.selectInWords_eq hl word, fun hl f hf => ?_,
    fun hl f hf hlength => ?_⟩
  · rw [← hs.rankOf_eq (hs.bookmarks b hb)]
    simp only [resolve, h.numbered.bookmark_of_mem hb]
    rfl
  · obtain ⟨xs, ys, hsplit⟩ := List.append_of_mem he
    exact hs.select_rankOf hsplit hv
  · obtain ⟨xs, e, ys, he, hp, hv, hc⟩ := hs.select_lt (hs.visible_eq ▸ hr)
    exact ⟨e, he ▸ mem_middle.2 (.inl rfl), hv, hp, (hs.rankOf_row he).trans hc⟩
  · obtain ⟨hw, hfits⟩ := hs.rankInWords_eq hl hp
    exact ⟨_, hw, Word.toNat_ofNat hfits⟩
  · obtain ⟨hw, hfits⟩ := hs.recountInWords_eq hl hf
    exact ⟨_, hw, Word.toNat_ofNat hfits⟩
  · obtain ⟨hw, hfits⟩ := Focus.recountInWords_eq hf (Nat.lt_of_le_of_lt hlength hl)
    exact ⟨_, hw, Word.toNat_ofNat hfits⟩

/-- Four rows, the second one hidden, and a bookmark on the third. -/
def hiddenSecond : Table :=
  (empty {} .bytewise).run [.put ⟨1, 1⟩ [Column.binary [1]] false,
    .put ⟨1, 2⟩ [Column.binary [2]] true, .put ⟨1, 3⟩ [Column.binary [3]] false,
    .put ⟨1, 4⟩ [Column.binary [4]] false, .goTo ⟨1, 3⟩, .createBookmark]

/-- The hidden row does not count towards the rank of the row after it. -/
theorem ranksExactly_hidden_second :
    hiddenSecond.Reachable ∧ hiddenSecond.size < 2 ^ 32 ∧ hiddenSecond.currentRank = 1 ∧
      hiddenSecond.select 1 = .row ⟨1, 3⟩ ∧
      ∃ word, hiddenSecond.rankInWords (.row ⟨1, 3⟩) = some word ∧ word.toNat = 1 := by
  have hreachable : hiddenSecond.Reachable := ⟨{}, .bytewise, _, rfl, rfl⟩
  have hrows : hiddenSecond.entries = [⟨⟨⟨1, 1⟩, [Column.binary [1]], 0⟩, false⟩,
      ⟨⟨⟨1, 2⟩, [Column.binary [2]], 1⟩, true⟩, ⟨⟨⟨1, 3⟩, [Column.binary [3]], 2⟩, false⟩,
      ⟨⟨⟨1, 4⟩, [Column.binary [4]], 3⟩, false⟩] := by cbv
  have hcursor : hiddenSecond.cursor = .row ⟨1, 3⟩ := by cbv
  have hsize : hiddenSecond.size < 2 ^ 32 := by
    rw [hreachable.sound.size_eq, hrows]
    decide
  have hranks := ranksExactly_of_reachable hreachable
  have hrank : hiddenSecond.rankOf (.row ⟨1, 3⟩) = 1 := hranks.row [_, _] _ [_] hrows
  have hselect := hranks.select_rank ⟨⟨⟨1, 3⟩, [Column.binary [3]], 2⟩, false⟩
    (by rw [hrows]; simp) rfl
  rw [hrank] at hselect
  obtain ⟨word, hword, hcount⟩ := hranks.rank_fits hsize _ (hcursor ▸ hranks.within.1)
  refine ⟨hreachable, hsize, ?_, hselect, word, hword, hcount.trans hrank⟩
  rw [currentRank, hcursor, hrank]

end Table

end LiveTable
