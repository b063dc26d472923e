import FairCycle.Automaton.Basic
import FairCycle.Automaton.Builder
import FairCycle.Automaton.Text
import FairCycle.Check
import FairCycle.Cluster.Desk
import FairCycle.Cluster.Ring
import FairCycle.Cluster.Superstep
import FairCycle.Cluster.Visit
import FairCycle.Cluster.Worker
import FairCycle.Config
import FairCycle.Event
import FairCycle.Fault
import FairCycle.Fingerprint
import FairCycle.Graph
import FairCycle.Graph.Affine
import FairCycle.Graph.Script
import FairCycle.Handle
import FairCycle.Index
import FairCycle.Lasso
import FairCycle.Ledger
import FairCycle.Mark
import FairCycle.Mark.Fields
import FairCycle.Pass
import FairCycle.Proofs.Agreement
import FairCycle.Proofs.Ancestry
import FairCycle.Proofs.Arena
import FairCycle.Proofs.Attempts
import FairCycle.Proofs.Automata
import FairCycle.Proofs.Balance
import FairCycle.Proofs.Breadth
import FairCycle.Proofs.Budget
import FairCycle.Proofs.Candidates
import FairCycle.Proofs.Census
import FairCycle.Proofs.Chase
import FairCycle.Proofs.Climb
import FairCycle.Proofs.Construction
import FairCycle.Proofs.Custody
import FairCycle.Proofs.Drift
import FairCycle.Proofs.EarlyExit
import FairCycle.Proofs.Eliminate
import FairCycle.Proofs.Explore
import FairCycle.Proofs.Failure
import FairCycle.Proofs.Frame
import FairCycle.Proofs.Frontier
import FairCycle.Proofs.Grammar
import FairCycle.Proofs.Growth
import FairCycle.Proofs.Halting
import FairCycle.Proofs.Laps
import FairCycle.Proofs.Lasso
import FairCycle.Proofs.Lasting
import FairCycle.Proofs.Layered
import FairCycle.Proofs.Line
import FairCycle.Proofs.Lineage
import FairCycle.Proofs.Lookup
import FairCycle.Proofs.Loops
import FairCycle.Proofs.Marks
import FairCycle.Proofs.Master
import FairCycle.Proofs.Moves
import FairCycle.Proofs.Outcome
import FairCycle.Proofs.Partition
import FairCycle.Proofs.Passes
import FairCycle.Proofs.Pick
import FairCycle.Proofs.Progress
import FairCycle.Proofs.Quiescence
import FairCycle.Proofs.Ranks
import FairCycle.Proofs.Reach
import FairCycle.Proofs.Reuse
import FairCycle.Proofs.RoundTrip
import FairCycle.Proofs.Rounds
import FairCycle.Proofs.Rows
import FairCycle.Proofs.Rules
import FairCycle.Proofs.Scene
import FairCycle.Proofs.Search
import FairCycle.Proofs.Settings
import FairCycle.Proofs.Sheet
import FairCycle.Proofs.Shortest
import FairCycle.Proofs.Stamps
import FairCycle.Proofs.Steps
import FairCycle.Proofs.Superstep
import FairCycle.Proofs.Survivors
import FairCycle.Proofs.Termination
import FairCycle.Proofs.Terrain
import FairCycle.Proofs.Trace
import FairCycle.Proofs.Traffic
import FairCycle.Proofs.Turns
import FairCycle.Proofs.Verdict
import FairCycle.Proofs.Written
import FairCycle.Queue
import FairCycle.Report
import FairCycle.Table
import FairCycle.Text.Blank
import FairCycle.Text.Line
import FairCycle.Text.Numeral
import FairCycle.Text.Record
