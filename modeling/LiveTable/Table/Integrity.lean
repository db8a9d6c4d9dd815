import LiveTable.Table.Basic

/-!
# Flaws of a table

What an integrity check may find wrong with a table: with the links of its nodes, with the numbers
stored in them, with their balance, with the agreement of nodes, pool and index, with the order of
the rows, and with the positions of the cursor and of the bookmarks. Where a table keeps its rows in
a tree, neither links nor positions can be wrong, and of all these flaws rows out of order are the
only one that calls can bring about: `Table.verify` looks for these alone. All checks are made where
the rows are kept in linked nodes.
-/

namespace LiveTable

inductive Flaw where
  | malformedGround
  | rootAstray (key : Key)
  | cyclic
  | groundBelow (slot : Nat)
  | freedChild (key : Key)
  | unlinked (key : Key)
  | miscounted (key : Key) (visible height trueVisible trueHeight : Nat)
  | unbalanced (key : Key) (left right : Nat)
  | groundMiscounted (visible height trueVisible trueHeight : Nat)
  | disagreeing (reachable allocated indexed : Nat)
  | stale (key : Key)
  | misordered (first second : Key)
  | cursorAstray (slot : Nat)
  | bookmarkAstray (mark : Mark) (slot : Nat)
  deriving DecidableEq

namespace Flaw

def counts (visible height trueVisible trueHeight : Nat) : String :=
  " counts " ++ visible.repr ++ "/" ++ height.repr ++ " expected " ++ trueVisible.repr ++ "/" ++
    trueHeight.repr

def slotText (slot : Nat) : String :=
  "NodeId(" ++ (if slot = 0 then "SENTINEL" else slot.repr) ++ ")"

def reason : Flaw → String
  | malformedGround => "malformed sentinel"
  | rootAstray key => "root " ++ key.text ++ " not linked to sentinel"
  | cyclic => "cycle in tree links"
  | groundBelow slot => "sentinel reachable below " ++ slotText slot
  | freedChild key => "row " ++ key.text ++ " links to freed node"
  | unlinked key => "row " ++ key.text ++ " has inconsistent parent link"
  | miscounted key v h tv th => "row " ++ key.text ++ counts v h tv th
  | unbalanced key l r =>
    "row " ++ key.text ++ " unbalanced (" ++ l.repr ++ " vs " ++ r.repr ++ ")"
  | groundMiscounted v h tv th => "sentinel" ++ counts v h tv th
  | disagreeing r a i =>
    r.repr ++ " reachable rows, " ++ a.repr ++ " allocated, " ++ i.repr ++ " indexed"
  | stale key => "index entry " ++ key.text ++ " is stale"
  | misordered a b => "row " ++ a.text ++ " sorts after " ++ b.text
  | cursorAstray slot => "cursor on freed node " ++ slotText slot
  | bookmarkAstray mark slot => "bookmark " ++ mark.text ++ " on freed node " ++ slotText slot

/-- A flaw as the fault that it is reported as. -/
def fault (f : Flaw) : Fault := .corrupted f.reason

end Flaw

/-- The first two neighbours that are not in order. -/
def misordered? (compare : SortKey → SortKey → Ordering) : List Entry → Option (Key × Key)
  | a :: b :: rest =>
    if (compare a.columns b.columns).isGT then some (a.key, b.key)
    else misordered? compare (b :: rest)
  | _ => none

namespace Table

/-- Checks the order of the rows. -/
def verify (t : Table) : Except Fault Unit :=
  match misordered? t.compare t.entries with
  | none => .ok ()
  | some (a, b) => .error (Flaw.misordered a b).fault

end Table

end LiveTable
