import LiveTable.Table.Bookmark
import LiveTable.Table.Category
import LiveTable.Table.Edit
import LiveTable.Table.Integrity
import LiveTable.Table.Read

/-!
# Commands

Every call of a table as a value, and a table as a machine that answers one
command after another. A command that fails leaves the table as it was. A state is
reachable if some list of commands leads to it from a table without rows.
-/

namespace LiveTable

inductive Command where
  | put (key : Key) (columns : SortKey) (hidden : Bool)
  | erase (key : Key)
  | setColumn (key : Key) (index : Nat) (column : Column)
  | clear
  | next
  | prev
  | seek (origin : Origin) (offset : Int)
  | goTo (key : Key)
  | lowerBound (probe : SortKey)
  | find (probe : SortKey)
  | read (reading : Reading)
  | visibleBefore (key : Key)
  | createBookmark
  | resolve (mark : Mark)
  | freeBookmark (mark : Mark)
  | collapse (key : Key)
  | expand (key : Key)
  | family (key : Key)
  | get (key : Key)
  | contains (key : Key)
  | isEmpty
  | rowCount
  | verify
  deriving DecidableEq

inductive Reply where
  | done
  | placed (placement : Placement)
  | recolumned (result : Recolumned)
  | travelled (travel : Travel)
  | standing (standing : Standing)
  | key (key : Option Key)
  | keys (keys : List Key)
  | mark (mark : Mark)
  | row (snapshot : Snapshot)
  | truth (value : Bool)
  | count (visible rank : Nat)
  deriving DecidableEq

namespace Table

/-- The answer to a command, with the table after it, or the fault. -/
def answer (t : Table) : Command → Except Fault (Reply × Table)
  | .put key columns hidden => (t.put key columns hidden).map fun (p, t) => (.placed p, t)
  | .erase key => (t.erase key).map fun t => (.done, t)
  | .setColumn key index column =>
    (t.setColumn key index column).map fun (r, t) => (.recolumned r, t)
  | .clear => .ok (.done, t.clear)
  | .next => .ok (.done, t.next)
  | .prev => .ok (.done, t.prev)
  | .seek origin offset => (t.seek origin offset).map fun (m, t) => (.travelled m, t)
  | .goTo key => (t.goTo key).map fun t => (.done, t)
  | .lowerBound probe => .ok (.done, t.lowerBound probe)
  | .find probe => .ok (.key (t.find? probe), t)
  | .read reading =>
    let (keys, t) := t.read reading
    .ok (.keys keys, t)
  | .visibleBefore key => (t.visibleBefore key).map fun k => (.key k, t)
  | .createBookmark => t.createBookmark.map fun (m, t) => (.mark m, t)
  | .resolve mark => (t.resolve mark).map fun s => (.standing s, t)
  | .freeBookmark mark => (t.freeBookmark mark).map fun t => (.done, t)
  | .collapse key => (t.collapse key).map fun (ks, t) => (.keys ks, t)
  | .expand key => (t.expand key).map fun (ks, t) => (.keys ks, t)
  | .family key => (t.family key).map fun ks => (.keys ks, t)
  | .get key => (t.get key).map fun s => (.row s, t)
  | .contains key => .ok (.truth (t.contains key), t)
  | .isEmpty => .ok (.truth t.isEmpty, t)
  | .rowCount => .ok (.count t.visible t.currentRank, t)
  | .verify => t.verify.map fun _ => (.done, t)

/-- Answers a command; a fault leaves the table as it was. -/
def perform (t : Table) (c : Command) : Except Fault Reply × Table :=
  match t.answer c with
  | .ok (reply, t) => (.ok reply, t)
  | .error fault => (.error fault, t)

def run (t : Table) (commands : List Command) : Table :=
  commands.foldl (fun t c => (t.perform c).2) t

def replies (t : Table) : List Command → List (Except Fault Reply)
  | [] => []
  | c :: rest => (t.perform c).1 :: replies (t.perform c).2 rest

/-- The table is what some commands make of a table without rows. -/
def Reachable (t : Table) : Prop :=
  ∃ settings collation commands,
    settings.validate = .ok () ∧ t = (empty settings collation).run commands

@[simp] theorem run_nil (t : Table) : t.run [] = t := rfl

@[simp] theorem run_cons (t : Table) (c : Command) (rest : List Command) :
    t.run (c :: rest) = (t.perform c).2.run rest := rfl

theorem run_append (t : Table) (cs ds : List Command) : t.run (cs ++ ds) = (t.run cs).run ds :=
  List.foldl_append

theorem perform_of_error {t : Table} {c : Command} {fault : Fault}
    (h : t.answer c = .error fault) : t.perform c = (.error fault, t) := by
  simp [perform, h]

theorem Reachable.perform {t : Table} (h : t.Reachable) (c : Command) :
    (t.perform c).2.Reachable := by
  obtain ⟨settings, collation, commands, hv, rfl⟩ := h
  exact ⟨settings, collation, commands ++ [c], hv, by rw [run_append]; rfl⟩

end Table

end LiveTable
