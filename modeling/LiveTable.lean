import LiveTable.Column.Text
import LiveTable.Proofs.Column.Encoding
import LiveTable.Proofs.Linked.Intact
import LiveTable.Proofs.Pool.Ledger
import LiveTable.Proofs.Sample
import LiveTable.Proofs.Table.Accounts
import LiveTable.Proofs.Table.Answers
import LiveTable.Proofs.Table.Collapse
import LiveTable.Proofs.Table.Commute
import LiveTable.Proofs.Table.Drift
import LiveTable.Proofs.Table.Failure
import LiveTable.Proofs.Table.Growth
import LiveTable.Proofs.Table.Height
import LiveTable.Proofs.Table.History
import LiveTable.Proofs.Table.Marks
import LiveTable.Proofs.Table.Mirror
import LiveTable.Proofs.Table.Neighbour
import LiveTable.Proofs.Table.Paging
import LiveTable.Proofs.Table.Recolumn
import LiveTable.Proofs.Table.Reopen
import LiveTable.Proofs.Table.Repeat
import LiveTable.Proofs.Table.Rewind
import LiveTable.Proofs.Table.Search
import LiveTable.Proofs.Table.Slice
import LiveTable.Proofs.Table.StableSort
import LiveTable.Proofs.Table.Steps
import LiveTable.Proofs.Table.Words
import LiveTable.Proofs.Tree.Links
import LiveTable.Proofs.Workload.Generated
import LiveTable.Proofs.Workload.Refinement
import LiveTable.Settings.Json
import LiveTable.Table.Footprint
import LiveTable.Workload.Profile
