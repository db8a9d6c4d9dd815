import LiveTable.Bisect

/-!
# What bisection finds

Where `p` holds of a leading part of a list and of nothing after it, bisection splits the list into
the elements that satisfy `p` and the others. A probe that satisfies `p` has only such elements
before it, and a probe that does not has only others after it, so that nothing is missed in the
half that is left aside.
-/

namespace LiveTable

variable {α : Type} {p : α → Bool}

/-- `p` holds of a leading part of the list only. -/
def Leading (p : α → Bool) (l : List α) : Prop :=
  l.Pairwise fun a b => p b = true → p a = true

theorem Leading.tail_of_neg {a : α} {rest : List α} (h : Leading p (a :: rest))
    (hp : p a = false) : ∀ b ∈ rest, p b = false := by
  intro b hb
  cases hpb : p b with
  | false => rfl
  | true => exact absurd ((List.pairwise_cons.1 h).1 b hb hpb) (by simp [hp])

theorem Leading.of_pos {l : List α} (h : Leading p l) {i : Nat} (hi : i < l.length)
    (hp : p l[i] = true) : ∀ a ∈ l.take i, p a = true := by
  have hl : l.take i ++ l[i] :: l.drop (i + 1) = l := by
    rw [← List.drop_eq_getElem_cons hi, List.take_append_drop]
  have hs := hl.symm ▸ h
  exact fun a ha => (List.pairwise_append.1 hs).2.2 a ha l[i] List.mem_cons_self hp

theorem Leading.of_neg {l : List α} (h : Leading p l) {i : Nat} (hi : i < l.length)
    (hp : p l[i] = false) : ∀ a ∈ l.drop i, p a = false := by
  have hl := List.drop_eq_getElem_cons hi
  have hs : Leading p (l[i] :: l.drop (i + 1)) := hl ▸ h.sublist (List.drop_sublist i l)
  intro a ha
  rw [hl] at ha
  rcases List.mem_cons.1 ha with rfl | ha
  · exact hp
  · exact hs.tail_of_neg hp a ha

theorem bisect_eq {l : List α} (h : Leading p l) : bisect p l = (l.filter p).length := by
  fun_induction bisect p l with
  | case1 => rfl
  | case2 a ha => simp [ha]
  | case3 a ha => simp [ha]
  | case4 a b rest l half hprobe ih =>
    have hi : half < l.length := by simp only [half, l, List.length_cons]; omega
    rw [List.getElem?_eq_getElem hi] at hprobe
    have hall := Leading.of_pos (l := l) h hi hprobe
    show _ = (l.filter p).length
    rw [ih (List.Pairwise.sublist (List.drop_sublist half l) h)]
    conv => rhs; rw [← List.take_append_drop half l]
    rw [List.filter_append, List.length_append, List.filter_eq_self.2 hall, List.length_take,
      Nat.min_eq_left (Nat.le_of_lt hi)]
  | case5 a b rest l half hprobe ih =>
    have hi : half < l.length := by simp only [half, l, List.length_cons]; omega
    rw [List.getElem?_eq_getElem hi, Option.map_some, Option.getD_some, Bool.not_eq_true] at hprobe
    have hnone := Leading.of_neg (l := l) h hi hprobe
    have hsub : l.drop (l.length - half) ⊆ l.drop half :=
      (List.drop_sublist_drop_left l (by simp only [half]; omega)).subset
    show _ = (l.filter p).length
    rw [ih (List.Pairwise.sublist (List.take_sublist (l.length - half) l) h)]
    conv => rhs; rw [← List.take_append_drop (l.length - half) l]
    have hrest : (l.drop (l.length - half)).filter p = [] :=
      List.filter_eq_nil_iff.2 fun a ha => by simp [hnone a (hsub ha)]
    rw [List.filter_append, hrest, List.append_nil]

theorem Leading.filter_append_filter {l : List α} (h : Leading p l) :
    l.filter p ++ l.filter (!p ·) = l := by
  induction l with
  | nil => rfl
  | cons a rest ih =>
    cases hp : p a with
    | true => simpa [hp] using ih (List.pairwise_cons.1 h).2
    | false =>
      have hnone := h.tail_of_neg hp
      have h1 : rest.filter p = [] := List.filter_eq_nil_iff.2 fun b hb => by simp [hnone b hb]
      have h2 : rest.filter (!p ·) = rest := List.filter_eq_self.2 fun b hb => by simp [hnone b hb]
      simp [hp, h1, h2]

theorem Leading.takeWhile_eq {l : List α} (h : Leading p l) : l.takeWhile p = l.filter p := by
  induction l with
  | nil => rfl
  | cons a rest ih =>
    cases hp : p a with
    | true => simpa [hp] using ih (List.pairwise_cons.1 h).2
    | false =>
      have hnone : rest.filter p = [] :=
        List.filter_eq_nil_iff.2 fun b hb => by simp [h.tail_of_neg hp b hb]
      simp [hp, hnone]

theorem take_bisect {l : List α} (h : Leading p l) : l.take (bisect p l) = l.filter p := by
  have ht : (l.filter p ++ l.filter (!p ·)).take (l.filter p).length = l.filter p := List.take_left
  rwa [h.filter_append_filter, ← bisect_eq h] at ht

theorem drop_bisect {l : List α} (h : Leading p l) : l.drop (bisect p l) = l.filter (!p ·) := by
  have hd : (l.filter p ++ l.filter (!p ·)).drop (l.filter p).length = l.filter (!p ·) :=
    List.drop_left
  rwa [h.filter_append_filter, ← bisect_eq h] at hd

end LiveTable
