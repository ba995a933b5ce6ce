import Deadwood.Data.SortedSet
import Deadwood.Node

namespace Deadwood

/-!
The order in which pending nodes are visited. What is computed from a seed does not depend on it.
-/

/-- Chooses the node to visit next by the number of visits made and the pending nodes. As long as a
node is pending, one that is pending is chosen. -/
structure Schedule (ν : Type) [Node ν] where
  pick : Nat → SortedSet ν → Option ν
  pick_mem : ∀ {number pending n}, pick number pending = some n → n ∈ pending
  pick_eq_none_iff : ∀ {number pending}, pick number pending = none ↔ pending.isEmpty = true

namespace Schedule

variable {ν : Type} [Node ν]

def smallest : Schedule ν where
  pick _ pending := pending.min?
  pick_mem := SortedSet.min?_mem
  pick_eq_none_iff := SortedSet.min?_eq_none_iff

def largest : Schedule ν where
  pick _ pending := pending.max?
  pick_mem := SortedSet.max?_mem
  pick_eq_none_iff := SortedSet.max?_eq_none_iff

end Schedule

end Deadwood
