import LatticeSurgery.Routing.Paths
import LatticeSurgery.Timeline.Compile
import LatticeSurgery.Proofs.Routing.SliceChannel
import LatticeSurgery.Proofs.Routing.Outcome
import LatticeSurgery.Proofs.Timeline.Steps
import LatticeSurgery.Proofs.Timeline.Occupancy
import LatticeSurgery.Proofs.Slice.Roster
import LatticeSurgery.Proofs.Timeline.Survivors
import LatticeSurgery.Proofs.Timeline.Failure
import LatticeSurgery.Proofs.Timeline.Identity
import LatticeSurgery.Proofs.Grid.Between
import LatticeSurgery.Proofs.Routing.OneRow
import LatticeSurgery.Proofs.Layout.Row
import LatticeSurgery.Proofs.Timeline.RowProgram
import LatticeSurgery.Proofs.Routing.Comparison
import LatticeSurgery.Proofs.Routing.Marks
import LatticeSurgery.Proofs.Timeline.Replay
import LatticeSurgery.Proofs.Program.Renaming
import LatticeSurgery.Proofs.Timeline.Renaming
import LatticeSurgery.Proofs.Timeline.Release
import LatticeSurgery.Proofs.Grid.Distance
import LatticeSurgery.Proofs.Slice.Additions
import LatticeSurgery.Proofs.Routing.Room
import LatticeSurgery.Proofs.Routing.Successive
import LatticeSurgery.Proofs.Routing.Length
import LatticeSurgery.Proofs.Timeline.Start
import LatticeSurgery.Proofs.Slice.Audit
import LatticeSurgery.Proofs.Timeline.SearchBox
import LatticeSurgery.Proofs.Slice.FreeSpace
import LatticeSurgery.Proofs.Slice.Deposits
import LatticeSurgery.Proofs.Slice.Lookup
import LatticeSurgery.Proofs.Timeline.RowCapacity
import LatticeSurgery.Proofs.Grid.Numbering
import LatticeSurgery.Proofs.Grid.Adjacency
import LatticeSurgery.Proofs.Program.LastOperator
import LatticeSurgery.Proofs.Timeline.Freshness
import LatticeSurgery.Routing.Graph
import LatticeSurgery.Proofs.Search.Renaming
import LatticeSurgery.Proofs.Routing.NumberedGraph
import LatticeSurgery.Proofs.Routing.GraphSearch
