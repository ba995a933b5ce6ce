import Deadwood.Data.OrderedMap
import Deadwood.Data.Position
import Deadwood.Data.Reach
import Deadwood.Data.RunSort
import Deadwood.Data.Search
import Deadwood.Data.Sort
import Deadwood.Data.SortedSet
import Deadwood.Text.Hex
import Deadwood.Text.Unprintable
import Deadwood.Text.Quoted
import Deadwood.Text.Banner
import Deadwood.Node
import Deadwood.Location
import Deadwood.Endpoint
import Deadwood.Var
import Deadwood.VarSet
import Deadwood.Universe
import Deadwood.Universe.Workspace
import Deadwood.Expr
import Deadwood.Statement
import Deadwood.Coverage
import Deadwood.Architecture
import Deadwood.Architecture.X86
import Deadwood.AddressRanges
import Deadwood.Program
import Deadwood.Edge
import Deadwood.Graph
import Deadwood.Graph.Editor
import Deadwood.Graph.Listing
import Deadwood.Event
import Deadwood.Liveness.Schedule
import Deadwood.Liveness.Effects
import Deadwood.Liveness.Analysis
import Deadwood.Liveness.Solver
import Deadwood.Liveness.LooseRun
import Deadwood.Elimination.Verdict
import Deadwood.Elimination.Contraction
import Deadwood.Elimination.Pass
import Deadwood.Elimination.Run
import Deadwood.Proofs.Interning
import Deadwood.Proofs.Transfer
import Deadwood.Proofs.Path
import Deadwood.Proofs.Construction
import Deadwood.Proofs.Worklist
import Deadwood.Proofs.Convergence
import Deadwood.Proofs.Deadness
import Deadwood.Proofs.Contraction
import Deadwood.Proofs.Folding
import Deadwood.Proofs.Removal
import Deadwood.Proofs.Rounds
import Deadwood.Proofs.Semantics
import Deadwood.Proofs.Simulation
import Deadwood.Proofs.Preservation
import Deadwood.Proofs.Arrangement
import Deadwood.Proofs.Bookkeeping
import Deadwood.Proofs.Likeness
import Deadwood.Proofs.Attempt
import Deadwood.Proofs.Course
import Deadwood.Proofs.Consistency
import Deadwood.Proofs.Regions
import Deadwood.Proofs.Verdicts
import Deadwood.Proofs.NormalForm
import Deadwood.Proofs.Arms
import Deadwood.Proofs.Exits
import Deadwood.Proofs.Requests
import Deadwood.Proofs.Truncation
import Deadwood.Proofs.Presentation
import Deadwood.Proofs.RoundCount
import Deadwood.Proofs.Growth
import Deadwood.Proofs.Catalog
import Deadwood.Proofs.Ledger
import Deadwood.Proofs.SetRefinement
import Deadwood.Proofs.Recomputation
import Deadwood.Proofs.Equations
import Deadwood.Proofs.Tendency
import Deadwood.Proofs.Priority
import Deadwood.Proofs.Closure
import Deadwood.Proofs.Foreign
import Deadwood.Proofs.RangeMembership
import Deadwood.Proofs.CanonicalRanges
import Deadwood.Proofs.Containment
import Deadwood.Proofs.CallHistory
import Deadwood.Proofs.StableOrder
