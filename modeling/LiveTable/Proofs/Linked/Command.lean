import LiveTable.Linked.Command
import LiveTable.Proofs.Linked.Category
import LiveTable.Proofs.Linked.Check

/-!
# Linked tables answer as tables do

Every command comes to the same answer on linked nodes as on a tree, and leaves a linked table that
stands for the other one (`Represents.perform`). No walk ends at an empty slot and none goes on for
ever: from a table without rows, every run of commands comes to something (`exists_run`).
-/

namespace LiveTable.LinkedTable

variable {w : LinkedTable} {t : Table} {all : List Nat}

namespace Represents

theorem ask {α : Type} (h : w.Represents t all) {x : Attempt α} {y : Except Fault α}
    (reply : α → Reply) (hx : Agrees (· = ·) x y) :
    Agrees Matches (w.ask x reply) (y.map fun a => (reply a, t)) := by
  cases hx with
  | ok he =>
    subst he
    exact .ok ⟨rfl, all, h⟩
  | error fault => exact .error fault

theorem answer (h : w.Represents t all) (c : Command) :
    Agrees Matches (w.answer c) (t.answer c) := by
  cases c with
  | put key columns hidden =>
    exact (h.put key columns hidden).map fun a b ⟨he, hw⟩ => .ok ⟨congrArg Reply.placed he, hw⟩
  | erase key => exact (h.erase key).map fun a b hw => .ok ⟨rfl, hw⟩
  | setColumn key index column =>
    exact (h.setColumn key index column).map fun a b ⟨he, hw⟩ =>
      .ok ⟨congrArg Reply.recolumned he, hw⟩
  | clear => exact .ok ⟨rfl, [], h.clear⟩
  | next =>
    refine .lift (h.cursor ▸ h.after h.sound.cursor) (.ok ⟨rfl, all, ?_⟩)
    exact h.moveTo (h.sound.after_within h.sound.cursor)
  | prev =>
    refine .lift (h.cursor ▸ h.before h.sound.cursor) (.ok ⟨rfl, all, ?_⟩)
    exact h.moveTo (h.sound.before_within h.sound.cursor)
  | seek origin offset =>
    exact (h.seek origin offset).map fun a b ⟨he, hw⟩ => .ok ⟨congrArg Reply.travelled he, hw⟩
  | goTo key => exact (h.goTo key).map fun a b hw => .ok ⟨rfl, hw⟩
  | lowerBound probe =>
    obtain ⟨o, ho, hw⟩ := h.lowerBound probe
    exact .lift ho (.ok ⟨rfl, all, hw⟩)
  | find probe => exact h.ask .key (.of_eq_some (h.find? probe) rfl)
  | read reading =>
    obtain ⟨x, hx, he, hw⟩ := h.read reading
    exact .lift hx (.ok ⟨congrArg Reply.keys he, hw⟩)
  | visibleBefore key => exact h.ask .key (h.visibleBefore key)
  | createBookmark =>
    exact h.createBookmark.map fun a b ⟨he, hw⟩ => .ok ⟨congrArg Reply.mark he, hw⟩
  | resolve mark => exact h.ask .standing (h.resolve mark)
  | freeBookmark mark => exact (h.freeBookmark mark).map fun a b hw => .ok ⟨rfl, hw⟩
  | collapse key => exact (h.collapse key).map fun a b ⟨he, hw⟩ => .ok ⟨congrArg Reply.keys he, hw⟩
  | expand key => exact (h.expand key).map fun a b ⟨he, hw⟩ => .ok ⟨congrArg Reply.keys he, hw⟩
  | family key => exact h.ask .keys (h.family key)
  | get key => exact h.ask .row (h.get key)
  | contains key =>
    refine .ok ⟨?_, all, h⟩
    rw [h.index_eq]
    rfl
  | isEmpty =>
    refine .ok ⟨?_, all, h⟩
    rw [h.size]
    rfl
  | rowCount => exact .lift h.visible (.lift h.currentRank (.ok ⟨rfl, all, h⟩))
  | verify => exact h.ask _ (.of_run h.verify)

/-- A command is answered alike, and the tables after it go together. -/
theorem perform (h : w.Represents t all) (c : Command) :
    ∃ w', w.perform c = some ((t.perform c).1, w') ∧ w'.StandsFor (t.perform c).2 := by
  have ha := h.answer c
  rw [LinkedTable.perform, Table.perform]
  generalize w.answer c = x at ha
  generalize t.answer c = y at ha
  cases ha with
  | @ok a b hab =>
    obtain ⟨reply, w'⟩ := a
    obtain ⟨reply', t'⟩ := b
    obtain ⟨rfl, hw'⟩ := hab
    exact ⟨w', rfl, hw'⟩
  | error fault => exact ⟨w, rfl, all, h⟩

theorem run (h : w.Represents t all) (commands : List Command) :
    ∃ w', w.run commands = some w' ∧ w'.StandsFor (t.run commands) := by
  induction commands generalizing w t all with
  | nil => exact ⟨w, rfl, all, h⟩
  | cons c rest ih =>
    obtain ⟨w₁, h₁, all₁, hw₁⟩ := h.perform c
    obtain ⟨w', hw', hs⟩ := ih hw₁
    refine ⟨w', ?_, hs⟩
    rw [LinkedTable.run, h₁]
    exact hw'

end Represents

/-- Every run of commands comes to a table of linked nodes that stands for the one it leads to. -/
theorem exists_run (settings : Settings) (collation : Collation) (commands : List Command) :
    ∃ w, (empty settings collation).run commands = some w ∧
      w.StandsFor ((Table.empty settings collation).run commands) :=
  (represents_empty settings collation).run commands

end LiveTable.LinkedTable
