import Deadwood.Graph
import Deadwood.Liveness.Solver

namespace Deadwood

/-!
Contracting a graph around an edge: whatever led to the edge's source leads to its target
afterwards. An edge that becomes a copy of another in this way is merged into it, and nodes that
are left without edges are forgotten.
-/

namespace Graph

variable {ν : Type} [DecidableEq ν]

/-- Moves an edge to another target, and takes it out if it is a copy there. The edge taken out
is reported with its new target. -/
def moveOrMerge (g : Graph ν) (target : ν) (e : Edge ν) : Graph ν × Option (Edge ν) :=
  let moved := { e with target }
  let g := g.redirect e.id target
  if g.hasCopy moved then (g.erase e.id, some moved) else (g, none)

def moveAll (g : Graph ν) (target : ν) : List (Edge ν) → Graph ν × List (Edge ν)
  | [] => (g, [])
  | e :: es =>
      let (g, first) := g.moveOrMerge target e
      let (g, others) := g.moveAll target es
      (g, first.toList ++ others)

theorem size_moveOrMerge_le (g : Graph ν) (target : ν) (e : Edge ν) :
    (g.moveOrMerge target e).1.size ≤ g.size := by
  have moved := g.size_redirect_le e.id target
  unfold moveOrMerge
  dsimp only
  split
  · exact Nat.le_trans (size_erase_le ..) moved
  · exact moved

theorem size_moveAll_le (g : Graph ν) (target : ν) (es : List (Edge ν)) :
    (g.moveAll target es).1.size ≤ g.size := by
  induction es generalizing g with
  | nil => exact Nat.le_refl _
  | cons e es ih => exact Nat.le_trans (ih _) (g.size_moveOrMerge_le target e)

end Graph

structure LiveGraph (ν : Type) where
  graph : Graph ν
  live : LiveMap ν

namespace LiveGraph

variable {ν : Type} [DecidableEq ν]

/-- Forgets a node and its live set, provided that no edge starts or ends there. -/
def forget (s : LiveGraph ν) (n : ν) : LiveGraph ν :=
  if s.graph.isIsolated n then { graph := s.graph.discard n, live := s.live.erase n } else s

/-- Takes out an edge, sends every edge into its source on to its target, and forgets the two
nodes if nothing is left there. The second part lists the edges merged on the way. -/
def contract (s : LiveGraph ν) (e : Edge ν) : LiveGraph ν × List (Edge ν) :=
  let without := s.graph.erase e.id
  let (graph, merged) := without.moveAll e.target (without.incoming e.source)
  ((({ s with graph } : LiveGraph ν).forget e.source).forget e.target, merged)

theorem size_forget (s : LiveGraph ν) (n : ν) : (s.forget n).graph.size = s.graph.size := by
  unfold forget
  split <;> simp

/-- A contraction takes at least the edge itself out of the graph. -/
theorem size_contract_lt {s : LiveGraph ν} {e : Edge ν} (found : s.graph.find? e.id = some e) :
    (s.contract e).1.graph.size < s.graph.size := by
  have removed := Graph.size_erase_lt found
  have moved := (s.graph.erase e.id).size_moveAll_le e.target
    ((s.graph.erase e.id).incoming e.source)
  simp only [contract, size_forget]
  omega

end LiveGraph

end Deadwood
