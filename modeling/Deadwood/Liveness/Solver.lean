import Deadwood.Data.OrderedMap
import Deadwood.Event
import Deadwood.Graph
import Deadwood.Liveness.Analysis
import Deadwood.Liveness.Schedule

namespace Deadwood

/-!
The worklist that computes live sets. Visiting a node recomputes its live set from its successors;
if the set changes, every node with an edge to it is to be visited again.
-/

/-- The live set of every node that has one. -/
abbrev LiveMap (ν : Type) := OrderedMap ν VarSet

/-- Why the live set before an edge could not be computed. -/
inductive Cause (ν : Type) where
  | missing (target : ν)
  | unsupported (cause : Unsupported)
deriving DecidableEq

def Cause.message {ν : Type} [Node ν] : Cause ν → String
  | missing target => Node.text target
  | unsupported cause => cause.message

/-- A cause with the edge it arose at and what was live behind that edge. -/
structure Failure (ν : Type) where
  cause : Cause ν
  edge : Edge ν
  behind : Option NameSet
deriving DecidableEq

def Failure.notes {ν : Type} [Node ν] (f : Failure ν) : List String :=
  let behind := match f.behind with
    | some names => names.text
    | none => "missing"
  ["At edge " ++ f.edge.text, "Target live-set: " ++ behind]

/-- The live sets so far, and the nodes still to visit. -/
structure Solver (ν : Type) [Node ν] where
  analysis : Analysis
  live : LiveMap ν
  pending : SortedSet ν

/-- One change of a live set. The node may not have had one before. -/
structure Update (ν : Type) where
  node : ν
  before : Option VarSet
  after : VarSet
deriving DecidableEq

namespace Solver

variable {ν : Type} [DecidableEq ν] [Node ν]

/-- Exits start with every register and all else with nothing, and every node is pending. -/
def seed (g : Graph ν) (a : Analysis) : Solver ν where
  analysis := a
  live := .ofKeys g.nodes g.nodes_nodup fun n =>
    if g.outDegree n = 0 then a.atExit else Analysis.bottom
  pending := .ofList g.nodes

def before (a : Analysis) (live : LiveMap ν) (e : Edge ν) : Except (Failure ν) VarSet × Analysis :=
  match live.get? e.target with
  | none => (.error { cause := .missing e.target, edge := e, behind := none }, a)
  | some behind =>
      match a.transfer behind e.statement with
      | (.ok s, a) => (.ok s, a)
      | (.error cause, a) =>
          (.error { cause := .unsupported cause, edge := e, behind := some (a.names behind) }, a)

def beforeAll (a : Analysis) (live : LiveMap ν) (e : Edge ν) :
    List (Edge ν) → Except (Failure ν) VarSet × Analysis
  | [] => before a live e
  | f :: fs =>
      match before a live e with
      | (.error failure, a) => (.error failure, a)
      | (.ok s, a) =>
          match beforeAll a live f fs with
          | (.error failure, a) => (.error failure, a)
          | (.ok t, a) => (.ok (s ∪ t), a)

/-- Recomputes the live set of a node. Without an edge to follow nothing changes. -/
def visit (g : Graph ν) (s : Solver ν) (n : ν) :
    Except (Failure ν) (Option (Update ν)) × Solver ν :=
  match g.outgoing n with
  | [] => (.ok none, s)
  | e :: es =>
      match beforeAll s.analysis s.live e es with
      | (.error failure, analysis) => (.error failure, { s with analysis })
      | (.ok after, analysis) =>
          let old := s.live.get? n
          if old = some after then (.ok none, { s with analysis })
          else
            (.ok (some { node := n, before := old, after }),
              { analysis
                live := s.live.insert n after
                pending := s.pending.insertMany ((g.incoming n).map Edge.source) })

def step (g : Graph ν) (s : Solver ν) (n : ν) :
    Except (Failure ν) (Option (Update ν)) × Solver ν :=
  visit g { s with pending := s.pending.erase n } n

end Solver

/-- How a run came to its end: nothing was pending, it was interrupted, a visit failed, or the
visits granted to it were used up. -/
inductive Ending (ν : Type) where
  | converged
  | interrupted
  | failed (failure : Failure ν)
  | unfinished
deriving DecidableEq

/-- The state a run ends in, with the changes it made from first to last and their count. -/
structure Outcome (ν : Type) [Node ν] where
  solver : Solver ν
  trace : List (Update ν) := []
  updates : Nat := 0
  ending : Ending ν

namespace Outcome

variable {ν : Type} [Node ν]

/-- An interrupted run reports how many nodes it left pending. -/
def events (o : Outcome ν) : List Event :=
  match o.ending with
  | .interrupted => [.interrupted o.solver.pending.size]
  | _ => []

end Outcome

namespace Solver

variable {ν : Type} [DecidableEq ν] [Node ν]

/-- Visits pending nodes until none is left, counting the visits from `number` on. With a limit
the run is interrupted once it has made that many changes, unless nothing is pending then. -/
def iterate (g : Graph ν) (schedule : Schedule ν) (visits number : Nat) (limit : Option Nat)
    (s : Solver ν) : Outcome ν :=
  match schedule.pick number s.pending with
  | none => { solver := s, ending := .converged }
  | some n =>
      if limit = some 0 then { solver := s, ending := .interrupted }
      else
        match visits with
        | 0 => { solver := s, ending := .unfinished }
        | visits + 1 =>
            match s.step g n with
            | (.error failure, s) => { solver := s, ending := .failed failure }
            | (.ok none, s) => iterate g schedule visits (number + 1) limit s
            | (.ok (some update), s) =>
                let rest := iterate g schedule visits (number + 1) (limit.map (· - 1)) s
                { rest with trace := update :: rest.trace, updates := rest.updates + 1 }

/-- How many variables can come up: those numbered already, the registers, and those the statements
name. -/
def variableBound (g : Graph ν) (a : Analysis) : Nat :=
  let named (s : Statement) : Nat :=
    (s.defines.toOption.getD []).length + (s.reads.toOption.getD []).length
  g.edges.foldl (fun bound e => bound + named e.statement)
    (a.table.size + a.architecture.registers.length)

/-- More visits than a run from a seed needs, or one that visits pending nodes in order. -/
def visitBound (g : Graph ν) (s : Solver ν) : Nat :=
  let nodes := g.nodes.length + 1
  s.pending.size + nodes * Nat.pow (variableBound g s.analysis + 3) nodes

def run (g : Graph ν) (s : Solver ν) (schedule : Schedule ν) (limit : Option Nat) : Outcome ν :=
  iterate g schedule (visitBound g s) 0 limit s

def idle (a : Architecture) : Solver ν where
  analysis := .ofArchitecture a
  live := ∅
  pending := ∅

def assign (s : Solver ν) (n : ν) (vs : List Var) : Solver ν :=
  let (members, analysis) := s.analysis.intern vs
  { s with analysis, live := s.live.insert n members }

def unassign (s : Solver ν) (n : ν) : Solver ν := { s with live := s.live.erase n }

def await (s : Solver ν) (ns : List ν) : Solver ν := { s with pending := .ofList ns }

def names (s : Solver ν) (n : ν) : Option NameSet := (s.live.get? n).map s.analysis.names

end Solver

/-- The live sets of a control flow graph given by its edges. -/
def liveness {ν : Type} [DecidableEq ν] [Node ν] (a : Architecture) (edges : List (Edge ν)) :
    Outcome ν :=
  let g := Graph.ofEdges (Edge.arrange edges)
  (Solver.seed g (.ofArchitecture a)).run g .smallest none

end Deadwood
