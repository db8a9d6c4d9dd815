import LiveTable.Proofs.Table.Bookmark
import LiveTable.Proofs.Table.Rank
import Mathlib

/-!
# Seeking by rank

A seek adds its offset to the rank of its origin, goes no further than to the first rank or past
the last one, and puts the cursor on the visible row of the rank that results (`target`). Ranks and
counts of 32 bits leave so much room in 64 bits that saturating additions come to the same rank
(`saturatingTarget_eq`).
-/

namespace LiveTable

/-- The rank at which an origin stands among the rows, and whether it has drifted since it was
saved. Only a bookmark that is still there is an origin. -/
inductive Origin.StandsAt (t : Table) : Origin → Nat → Bool → Prop where
  | start : StandsAt t .start 0 false
  | current : StandsAt t .current t.currentRank false
  | finish : StandsAt t .finish t.visible false
  | bookmark {b : Bookmark} (there : b ∈ t.bookmarks) :
    StandsAt t (.bookmark b.mark) (visibleCount (b.position.behind t.entries))
      (visibleCount (b.position.behind t.entries) ≠ b.rank)

/-- The position is where a rank leads: before the first row if none is visible, otherwise on the
only visible row that has the rank, or past the end if the rank is the number of visible rows. -/
structure Position.Lands (rows : List Entry) (rank : Int) (p : Position) : Prop where
  none_visible : visibleCount rows = 0 → p = .beforeFirst
  on_row : rank < visibleCount rows → ∃ e, p = .row e.key ∧ RankedAt rows rank.toNat e ∧
    ∀ other, RankedAt rows rank.toNat other → other = e
  past_end : visibleCount rows ≠ 0 → rank = visibleCount rows → p = .pastEnd
  never_hidden : ∀ e ∈ rows, p = .row e.key → e.hidden = false

namespace Table

variable {t : Table} {origin : Origin} {mark : Mark} {start : Nat} {drifted : Bool}

def target (t : Table) (start : Nat) (offset : Int) : Int := max 0 (min (start + offset) t.visible)

/-- The rank that a seek comes to in arithmetic of 64 bits whose additions saturate. -/
def saturatingTarget (t : Table) (start : Nat) (offset : Int64) : Int :=
  max 0 (min (Int64.ofIntClamp (start + offset.toInt)).toInt t.visible)

theorem target_nonneg (t : Table) (start : Nat) (offset : Int) : 0 ≤ t.target start offset := by
  unfold target
  omega

theorem target_le (t : Table) (start : Nat) (offset : Int) : t.target start offset ≤ t.visible := by
  unfold target
  omega

theorem saturatingTarget_eq (hv : t.visible < 2 ^ 32) (start : Nat) (offset : Int64) :
    t.saturatingTarget start offset = t.target start offset.toInt := by
  have hlow : Int64.minValue.toInt = -2 ^ 63 := by decide
  have hhigh : Int64.maxValue.toInt = 2 ^ 63 - 1 := by decide
  have hoffset : -2 ^ 63 ≤ offset.toInt := hlow ▸ offset.minValue_le_toInt
  unfold saturatingTarget target
  -- a rank is not negative, so that the sum can only be too large
  by_cases hsum : start + offset.toInt ≤ Int64.maxValue.toInt
  · rw [Int64.toInt_ofIntClamp (by omega) hsum]
  · have hclamp : Int64.ofIntClamp (start + offset.toInt) = Int64.maxValue := by
      rw [Int64.ofIntClamp, dif_pos (by omega), dif_neg hsum]
    rw [hclamp]
    omega

/-! ## Origins -/

theorem origin_of_bookmark {b : Bookmark} (hb : t.bookmark mark = .ok b) :
    t.origin (.bookmark mark) = .ok ⟨t.rankOf b.position, t.rankOf b.position ≠ b.rank⟩ := by
  simp only [origin, resolve, hb]
  rfl

theorem Numbered.origin_eq (h : t.Numbered) (hs : t.Sound) (ho : origin.StandsAt t start drifted) :
    t.origin origin = .ok ⟨start, drifted⟩ := by
  cases ho with
  | start | current | finish => rfl
  | bookmark hb => rw [origin_of_bookmark (h.bookmark_of_mem hb), hs.rankOf_eq (hs.bookmarks _ hb)]

/-! ## Seeks -/

theorem seek_of_ok (ho : t.origin origin = .ok ⟨start, drifted⟩) (offset : Int) :
    t.seek origin offset = .ok (⟨t.target start offset - start, drifted⟩,
      { t with cursor := if t.visible = 0 then .beforeFirst
        else t.select (t.target start offset).toNat }.note .sought) := by
  have htarget : t.target start offset = (min (start + offset).toNat t.visible : Nat) := by
    unfold target
    omega
  simp only [seek, ho, htarget, Int.toNat_natCast]
  rfl

theorem perform_seek_of_ok (ho : t.origin origin = .ok ⟨start, drifted⟩) (offset : Int) :
    t.perform (.seek origin offset) = (.ok (.travelled ⟨t.target start offset - start, drifted⟩),
      { t with cursor := if t.visible = 0 then .beforeFirst
        else t.select (t.target start offset).toNat }.note .sought) :=
  perform_of_ok (congrArg (Except.map _) (seek_of_ok ho offset))

theorem seek_of_error {fault : Fault} (ho : t.origin origin = .error fault) (offset : Int) :
    t.seek origin offset = .error fault := by
  simp only [seek, ho]
  rfl

theorem Sound.lands_select (h : t.Sound) {rank : Int} (hn : 0 ≤ rank) :
    (if t.visible = 0 then Position.beforeFirst else t.select rank.toNat).Lands t.entries rank := by
  rw [h.visible_eq]
  by_cases hv : visibleCount t.entries = 0
  · rw [if_pos hv]
    exact ⟨fun _ => rfl, fun hr => by omega, fun hne => absurd hv hne, fun _ _ hp => by cases hp⟩
  rw [if_neg hv]
  rcases Nat.lt_or_ge rank.toNat t.visible with hr | hr
  · obtain ⟨e, hp, hranked⟩ := h.select_rankedAt hr
    rw [hp]
    refine ⟨fun h0 => absurd h0 hv, fun _ => ⟨e, rfl, hranked, fun other ho => ho.unique hranked⟩,
      fun _ he => ?_, fun a ha hk => ?_⟩
    · rw [h.visible_eq] at hr
      omega
    · obtain ⟨xs, ys, he, hvisible, -⟩ := hranked
      cases h.distinct.eq_of_key ha (he ▸ mem_middle.2 (.inl rfl)) (Position.row.inj hk).symm
      exact hvisible
  · rw [h.select_ge hr]
    rw [h.visible_eq] at hr
    exact ⟨fun h0 => absurd h0 hv, fun hlt => by omega, fun _ _ => rfl, fun _ _ hp => by cases hp⟩

/-- A seek from an origin goes exactly as many ranks as its offset says, short only of the first
rank and of the last row, and tells by how many and whether the origin had drifted. -/
theorem perform_seek_lands (h : t.Reachable) (ho : origin.StandsAt t start drifted)
    (offset : Int) :
    ∃ t', t.perform (.seek origin offset) =
        (.ok (.travelled ⟨t.target start offset - start, drifted⟩), t') ∧
      t'.entries = t.entries ∧ t'.cursor.Lands t.entries (t.target start offset) ∧
      t'.currentRank = t.target start offset ∧
      (t.visible < 2 ^ 32 → ∀ word : Int64, word.toInt = offset →
        t.saturatingTarget start word = t.target start offset) := by
  have hs := h.sound
  have hseek := seek_of_ok (h.numbered.origin_eq hs ho) offset
  have hn := t.target_nonneg start offset
  have hle := t.target_le start offset
  refine ⟨_, perform_of_ok (congrArg (Except.map _) hseek), rfl, hs.lands_select hn, ?_, ?_⟩
  · show (t.rankOf (if t.visible = 0 then .beforeFirst else _) : Int) = _
    by_cases hv : t.visible = 0
    · rw [if_pos hv]
      show (0 : Int) = _
      omega
    · rw [if_neg hv, hs.rankOf_select (by omega)]
      omega
  · rintro hv word rfl
    exact saturatingTarget_eq hv start word

/-- Three rows and a bookmark on the last one; one row is hidden and one came in front later. -/
def driftedByOne : Table :=
  (empty {} .bytewise).run [.put ⟨1, 1⟩ [Column.binary [1]] false,
    .put ⟨1, 2⟩ [Column.binary [2]] true, .put ⟨1, 3⟩ [Column.binary [3]] false,
    .goTo ⟨1, 3⟩, .createBookmark, .put ⟨1, 4⟩ [Column.binary [0]] false]

/-- The least offset there is leads from the bookmark to the row in front, two ranks back. -/
theorem perform_seek_lands_in_front :
    driftedByOne.Reachable ∧ (Origin.bookmark ⟨3⟩).StandsAt driftedByOne 2 true ∧
      ∃ t', driftedByOne.perform (.seek (.bookmark ⟨3⟩) (-2 ^ 63)) =
        (.ok (.travelled ⟨-2, true⟩), t') ∧ t'.cursor = .row ⟨1, 4⟩ := by
  have hreachable : driftedByOne.Reachable := ⟨{}, .bytewise, _, rfl, rfl⟩
  have hrows : driftedByOne.entries = [⟨⟨⟨1, 4⟩, [Column.binary [0]], 3⟩, false⟩,
      ⟨⟨⟨1, 1⟩, [Column.binary [1]], 0⟩, false⟩, ⟨⟨⟨1, 2⟩, [Column.binary [2]], 1⟩, true⟩,
      ⟨⟨⟨1, 3⟩, [Column.binary [3]], 2⟩, false⟩] := by cbv
  have hmarks : driftedByOne.bookmarks = [⟨⟨3⟩, .row ⟨1, 3⟩, 1⟩] := by cbv
  have horigin : (Origin.bookmark ⟨3⟩).StandsAt driftedByOne 2 true := by
    have hstands :=
      Origin.StandsAt.bookmark (t := driftedByOne) (hmarks ▸ List.mem_singleton_self _)
    rw [hrows] at hstands
    exact hstands
  have htarget : driftedByOne.target 2 (-2 ^ 63) = 0 := by cbv
  obtain ⟨t', hseek, -, hlands, -⟩ := perform_seek_lands hreachable horigin (-2 ^ 63)
  rw [htarget] at hseek hlands
  rw [hrows] at hlands
  obtain ⟨e, hcursor, -, honly⟩ := hlands.on_row (by decide)
  have hfirst := honly _ ⟨[], _, rfl, rfl, rfl⟩
  exact ⟨hreachable, horigin, t', hseek, by rw [hcursor, ← hfirst]⟩

end Table

end LiveTable
