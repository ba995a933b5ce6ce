import Deadwood.Liveness.Solver

namespace Deadwood

/-!
Liveness of edges as they are handed in. A node can only be chosen among pending ones of one kind,
so a run over numbers and locations may come to a halt.
-/

namespace Solver

/-- A run of which each visit needs pending nodes of one kind. Where they are not, the run stays
unfinished, and the nodes in the way are told. -/
def iterateLoose (g : Graph Endpoint) (schedule : Schedule Endpoint) :
    Nat → Nat → Option Nat → Solver Endpoint → Outcome Endpoint × Option Incomparable
  | 0, _, _, s => ({ solver := s, ending := .unfinished }, none)
  | visits + 1, number, limit, s =>
      match limit, Endpoint.arrange s.pending.toList with
      | some 0, _ | _, .ok _ =>
          let first := iterate g schedule 1 number limit s
          match first.ending with
          | .unfinished =>
              let left := limit.map (· - first.updates)
              let (rest, halt) := iterateLoose g schedule visits (number + 1) left first.solver
              ({ rest with
                trace := first.trace ++ rest.trace
                updates := first.updates + rest.updates }, halt)
          | _ => (first, none)
      | _, .error halt => ({ solver := s, ending := .unfinished }, some halt)

def runLoose (g : Graph Endpoint) (s : Solver Endpoint) (schedule : Schedule Endpoint)
    (limit : Option Nat) : Outcome Endpoint × Option Incomparable :=
  iterateLoose g schedule (visitBound g s) 0 limit s

end Solver

end Deadwood
