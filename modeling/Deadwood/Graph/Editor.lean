import Deadwood.Data.Position
import Deadwood.Graph

namespace Deadwood

/-!
A pool of edges of which some are in a graph. Edges go in and out by id, and an edge that is out
keeps the target it had.
-/

/-- Why an edge could not be taken out of a graph: nothing joins its two ends, or only other edges
do. -/
inductive GraphError (ν : Type) where
  | unjoined (e : Edge ν)
  | absent (e : Edge ν)

def GraphError.message {ν : Type} [Node ν] : GraphError ν → String
  | unjoined e =>
      "The edge " ++ Node.text e.source ++ "-" ++ Node.text e.target ++ " is not in the graph."
  | absent e =>
      "The edge " ++ Node.text e.source ++ "-" ++ Node.text e.target ++ " with key " ++ e.text ++
        " is not in the graph."

namespace Graph

def remove {ν : Type} [DecidableEq ν] (g : Graph ν) (e : Edge ν) :
    Except (GraphError ν) (Graph ν) :=
  if g.has e.id then .ok (g.erase e.id)
  else if g.edges.any (·.isParallel e) then .error (.absent e)
  else .error (.unjoined e)

end Graph

/-- Every edge stands in the pool at the position that is its id, with its current target. -/
structure Editor (ν : Type) where
  pool : List (Edge ν)
  graph : Graph ν

/-- A change of the graph. Edges are named by id. -/
inductive Edit (ν : Type) where
  | add (id : Nat)
  | remove (id : Nat)
  | redirect (id : Nat) (target : ν)
  | discard (n : ν)

namespace Editor

variable {ν : Type} [DecidableEq ν]

/-- A pool of which the listed edges are put into the graph one after the other. -/
def ofPool (pool : List (Edge ν)) (inside : List Nat) : Editor ν :=
  { pool, graph := .ofEdges (inside.filterMap (pool[·]?)) }

def full (pool : List (Edge ν)) : Editor ν := { pool, graph := .ofEdges pool }

def edge? (ed : Editor ν) (id : Nat) : Option (Edge ν) := ed.pool[id]?

def edgeAt (ed : Editor ν) (position : Int) : Except PositionError (Edge ν) :=
  elementAt ed.pool position

def redirect (ed : Editor ν) (e : Edge ν) (target : ν) : Except (GraphError ν) (Editor ν) := do
  let without ← ed.graph.remove e
  let moved := { e with target }
  return { pool := ed.pool.set e.id moved, graph := without.insert moved }

/-- Carries out a change. One that fails changes nothing, and neither does one that names no edge
of the pool. -/
def apply (ed : Editor ν) : Edit ν → Except (GraphError ν) (Editor ν)
  | .add id =>
      match ed.edge? id with
      | some e => .ok { ed with graph := ed.graph.insert e }
      | none => .ok ed
  | .remove id =>
      match ed.edge? id with
      | some e => do return { ed with graph := ← ed.graph.remove e }
      | none => .ok ed
  | .redirect id target =>
      match ed.edge? id with
      | some e => ed.redirect e target
      | none => .ok ed
  | .discard n => .ok { ed with graph := ed.graph.discard n }

end Editor

end Deadwood
