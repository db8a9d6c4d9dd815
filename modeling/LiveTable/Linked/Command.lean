import LiveTable.Linked.Check

/-!
# Commands on linked nodes

A table of linked nodes answers the commands that any table answers. A run of commands comes to
nothing as soon as one of them does.
-/

namespace LiveTable.LinkedTable

variable (w : LinkedTable)

def ask {α : Type} (answer : Attempt α) (reply : α → Reply) : Attempt (Reply × LinkedTable) :=
  (reply ·, w) <$> answer

/-- The answer to a command, with the table after it, or the fault. -/
def answer : Command → Attempt (Reply × LinkedTable)
  | .put key columns hidden => do
    let (p, w) ← w.put key columns hidden
    return (.placed p, w)
  | .erase key => return (.done, ← w.erase key)
  | .setColumn key index column => do
    let (r, w) ← w.setColumn key index column
    return (.recolumned r, w)
  | .clear => return (.done, w.clear)
  | .next => return (.done, { w with cursor := ← w.after w.cursor })
  | .prev => return (.done, { w with cursor := ← w.before w.cursor })
  | .seek origin offset => do
    let (m, w) ← w.seek origin offset
    return (.travelled m, w)
  | .goTo key => return (.done, ← w.goTo key)
  | .lowerBound probe => return (.done, { w with cursor := ← w.bound probe })
  | .find probe => w.ask (w.find? probe) .key
  | .read reading => do
    let (keys, w) ← w.read reading
    return (.keys keys, w)
  | .visibleBefore key => w.ask (w.visibleBefore key) .key
  | .createBookmark => do
    let (m, w) ← w.createBookmark
    return (.mark m, w)
  | .resolve mark => w.ask (w.resolve mark) .standing
  | .freeBookmark mark => return (.done, ← w.freeBookmark mark)
  | .collapse key => do
    let (keys, w) ← w.collapse key
    return (.keys keys, w)
  | .expand key => do
    let (keys, w) ← w.expand key
    return (.keys keys, w)
  | .family key => w.ask (w.family key) .keys
  | .get key => w.ask (w.get key) .row
  | .contains key => return (.truth (w.index.contains key), w)
  | .isEmpty => return (.truth (w.size = 0), w)
  | .rowCount => do
    let visible ← w.visible
    return (.count visible (← w.rankOf w.cursor), w)
  | .verify => w.ask w.verify fun _ => .done

/-- Answers a command; a fault leaves the table as it was. -/
def perform (c : Command) : Option (Except Fault Reply × LinkedTable) := do
  match ← (w.answer c).run with
  | .ok (reply, w) => return (.ok reply, w)
  | .error fault => return (.error fault, w)

def run (w : LinkedTable) : List Command → Option LinkedTable
  | [] => some w
  | c :: rest => do
    let (_, w) ← w.perform c
    w.run rest

end LiveTable.LinkedTable
