import LiveTable.Proofs.Table.Listing

/-!
# Following a table by its replies

A client that hears the replies to all commands, and nothing else, can keep a list of the keys in
table order: it takes out the key of a row that was put or erased and puts one that was put directly
after the predecessor that the reply names. No order of the sort keys is needed for that: whatever
the collation and the columns, the client has the keys of all rows after every command
(`mirror_eq_allRows`).
-/

namespace LiveTable

/-- The keys of a table in table order, as a client has them. -/
abbrev Mirror := List Key

namespace Mirror

def without (m : Mirror) (key : Key) : Mirror := m.filter (· ≠ key)

def insertBehind (p key : Key) : Mirror → Mirror
  | [] => []
  | k :: rest => if k = p then k :: key :: rest else k :: insertBehind p key rest

/-- The key goes in directly after its predecessor, at the front if it has none. -/
def insertAfter (m : Mirror) (predecessor : Option Key) (key : Key) : Mirror :=
  match predecessor with
  | none => key :: m
  | some p => m.insertBehind p key

/-- What the client makes of the reply to a command. -/
def hear (m : Mirror) (c : Command) (reply : Except Fault Reply) : Mirror :=
  match c, reply with
  | .put key _ _, .ok (.placed p) => (m.without key).insertAfter p.predecessor key
  | .setColumn key _ _, .ok (.recolumned r) => (m.without key).insertAfter r.predecessor key
  | .erase key, .ok _ => m.without key
  | .clear, .ok _ => []
  | _, _ => m

def hearAll (m : Mirror) (commands : List Command) (replies : List (Except Fault Reply)) : Mirror :=
  (commands.zip replies).foldl (fun m (c, reply) => m.hear c reply) m

variable {xs ys : Mirror} {p key : Key}

theorem insertBehind_append (h : p ∉ xs) :
    insertBehind p key (xs ++ p :: ys) = xs ++ p :: key :: ys := by
  induction xs with
  | nil => exact if_pos rfl
  | cons k rest ih =>
    rw [List.mem_cons, not_or] at h
    rw [List.cons_append, insertBehind, if_neg (Ne.symm h.1), ih h.2]
    rfl

theorem insertAfter_append (h : xs.Nodup) :
    insertAfter (xs ++ ys) xs.getLast? key = xs ++ key :: ys := by
  rcases List.eq_nil_or_concat xs with rfl | ⟨rest, p, rfl⟩
  · rfl
  · rw [List.concat_eq_append] at h ⊢
    have hp : p ∉ rest := fun hm => (List.nodup_append.1 h).2.2 p hm p List.mem_cons_self rfl
    rw [List.getLast?_concat, List.append_assoc, List.append_assoc]
    exact insertBehind_append hp

end Mirror

namespace Table

def keys (t : Table) : Mirror := t.entries.map (·.key)

variable {t t' : Table} {c : Command} {key : Key}

theorem keys_filter_ne (t : Table) (key : Key) :
    (t.entries.filter (·.key ≠ key)).map (·.key) = t.keys.without key := by
  rw [Mirror.without, keys, List.filter_map]
  rfl

/-- The place that the answer to a `put` names is the place of the row. -/
theorem Sound.keys_put (h : t.Sound) {columns : SortKey} {hidden : Bool} {p : Placement}
    (hp : t.put key columns hidden = .ok (p, t')) :
    (t.keys.without key).insertAfter p.predecessor key = t'.keys := by
  obtain ⟨xs, e, ys, he, rfl, hpred, hothers⟩ := h.put_predecessor hp
  have hd := (h.of_put hp).distinct
  rw [Distinct, he, List.map_append, List.nodup_append] at hd
  rw [← keys_filter_ne, ← hothers, hpred, ← List.getLast?_map, keys, he, List.map_append,
    List.map_append]
  exact Mirror.insertAfter_append hd.1

/-- The client hears nothing of a command that does not edit, nor is there anything to hear. -/
theorem hear_of_not_edits (hc : c.edits = false) (m : Mirror) (reply : Except Fault Reply) :
    m.hear c reply = m := by
  cases c with
  | put | erase | setColumn | clear | collapse | expand => cases hc
  | _ => rfl

/-- After every command the client has the keys that the table has. -/
theorem Sound.hear_perform (h : t.Sound) (c : Command) :
    t.keys.hear c (t.perform c).1 = (t.perform c).2.keys := by
  cases c using Command.edits_cases with
  | same c hc =>
    rw [hear_of_not_edits hc, keys, keys, (t.perform_same hc).entries]
  | put key columns hidden =>
    cases hp : t.put key columns hidden with
    | error fault =>
      rw [perform_of_error (c := .put key columns hidden) (congrArg (Except.map _) hp)]
      rfl
    | ok r =>
      rw [perform_of_ok (c := .put key columns hidden) (congrArg (Except.map _) hp)]
      exact h.keys_put hp
  | setColumn key index column =>
    cases hr : t.setColumn key index column with
    | error fault =>
      rw [perform_of_error (c := .setColumn key index column) (congrArg (Except.map _) hr)]
      rfl
    | ok r =>
      obtain ⟨r, t'⟩ := r
      obtain ⟨columns, hidden, hp⟩ := put_of_setColumn hr
      rw [perform_of_ok (c := .setColumn key index column) (congrArg (Except.map _) hr)]
      exact h.keys_put hp
  | erase key =>
    cases hf : t.focus? key with
    | none =>
      rw [perform_of_error (c := .erase key) (congrArg (Except.map _) (erase_of_none hf))]
      rfl
    | some f =>
      obtain ⟨hs, rfl⟩ := h.splits_of_focus? hf
      rw [perform_of_ok (c := .erase f.key) (congrArg (Except.map _) (erase_of_some hf))]
      show t.keys.without f.key = (t.detach f).entries.map (·.key)
      rw [entries_detach hs, ← keys_filter_ne, entries_of_splits hs]
      exact congrArg _ (entries_of_splits hs ▸ h.distinct).filter_ne
  | clear => rfl
  | collapse key =>
    show t.keys = _
    rcases t.perform_collapse key with ⟨-, he⟩ | ⟨f, hf, he⟩
    all_goals rw [he]
    exact (sameRows_collapsed (h.splits_of_focus? hf).1).keys.symm
  | expand key =>
    show t.keys = _
    rcases t.perform_expand key with he | ⟨f, n, hf, he⟩
    all_goals rw [he]
    exact (sameRows_expanded (h.splits_of_focus? hf).1).keys.symm

theorem Sound.hearAll_replies (h : t.Sound) (commands : List Command) :
    t.keys.hearAll commands (t.replies commands) = (t.run commands).keys := by
  induction commands generalizing t with
  | nil => rfl
  | cons c rest ih =>
    show ((t.keys.hear c (t.perform c).1).hearAll rest ((t.perform c).2.replies rest)) = _
    rw [h.hear_perform c]
    exact ih (h.perform c)

/-- A client that starts with nothing has, after each of any commands, the keys of all rows in table
order, and as many as there are. -/
theorem mirror_eq_allRows (settings : Settings) (collation : Collation) (commands : List Command) :
    let new := empty settings collation
    Mirror.hearAll [] commands (new.replies commands) = ((new.run commands).allRows true).1 ∧
      (Mirror.hearAll [] commands (new.replies commands)).length = (new.run commands).size := by
  intro new
  have hnew : new.Sound := sound_empty settings collation
  have hrun := hnew.run commands
  have hkeys : Mirror.hearAll [] commands (new.replies commands) = (new.run commands).keys :=
    hnew.hearAll_replies commands
  have hall : (new.run commands).entries.filter (fun e => true || e.isVisible) =
      (new.run commands).entries :=
    List.filter_eq_self.2 fun _ _ => rfl
  rw [hkeys, hrun.allRows_fst, hall, hrun.size_eq, keys, List.length_map]
  exact ⟨rfl, rfl⟩

end Table

end LiveTable
