import Deadwood.Data.Sort
import Deadwood.Endpoint
import Deadwood.Statement

namespace Deadwood

/-!
Edges of a control flow graph. An edge keeps its id, source and statement for life; only its target
moves, when the graph is contracted around a removed edge.
-/

structure Edge (ν : Type) where
  id : Nat
  source : ν
  target : ν
  statement : Statement
deriving DecidableEq

namespace Edge

variable {ν : Type}

def text [Node ν] (e : Edge ν) : String :=
  Node.text e.source ++ " -> " ++ Node.text e.target ++ ": " ++ e.statement.text

/-- The order of a listing: by source, then by target, then by the text of the statement. Different
statements can have one text. -/
def compareKey [Node ν] : Edge ν → Edge ν → Ordering :=
  compareLex (compareOn source) (compareLex (compareOn target) (compareOn (·.statement.text)))

instance [Node ν] : Std.TransCmp (@compareKey ν _) :=
  inferInstanceAs (Std.TransCmp
    (compareLex (compareOn source) (compareLex (compareOn target) (compareOn (·.statement.text)))))

def keyLe [Node ν] (e f : Edge ν) : Bool := (compareKey e f).isLE

def isParallel [DecidableEq ν] (e f : Edge ν) : Bool := e.source = f.source ∧ e.target = f.target

def isCopy [DecidableEq ν] (e f : Edge ν) : Bool := e.isParallel f ∧ e.statement = f.statement

theorem isCopy_iff [DecidableEq ν] {e f : Edge ν} :
    e.isCopy f = true ↔
      e.source = f.source ∧ e.target = f.target ∧ e.statement = f.statement := by
  simp [isCopy, isParallel, and_assoc]

theorem keyLe_trans [Node ν] {e f g : Edge ν} (first : e.keyLe f) (second : f.keyLe g) :
    e.keyLe g :=
  Std.TransCmp.isLE_trans first second

theorem keyLe_total [Node ν] (e f : Edge ν) : e.keyLe f ∨ f.keyLe e := by
  have turned : compareKey e f = (compareKey f e).swap := Std.OrientedCmp.eq_swap
  unfold keyLe
  cases order : compareKey f e <;> simp [turned, order]

/-- The first of every group of copies, in the order they came in. -/
def withoutCopies [DecidableEq ν] : List (Edge ν) → List (Edge ν)
  | [] => []
  | e :: es => e :: (withoutCopies es).filter (!e.isCopy ·)

/-- The edges without copies, in the order of a listing. -/
def arrange [DecidableEq ν] [Node ν] (edges : List (Edge ν)) : List (Edge ν) :=
  sort keyLe (withoutCopies edges)

/-- Edges whose ids are their positions. -/
def number (parts : List (ν × ν × Statement)) : List (Edge ν) :=
  parts.mapIdx fun id (source, target, statement) => { id, source, target, statement }

def describe (e : Edge Endpoint) : String :=
  "Edge(source=" ++ e.source.describe ++ ", target=" ++ e.target.describe ++ ", statement=" ++
    e.statement.describe ++ ")"

end Edge

/-- An edge that has an end which is no location. -/
structure LooseEdge where
  edge : Edge Endpoint
deriving DecidableEq

def LooseEdge.message (e : LooseEdge) : String :=
  "Edge endpoints must be locations: " ++ e.edge.describe

/-- The answer to whether a loose edge crosses the border of a region of addresses. -/
def LooseEdge.unplaced : String := "'int' object has no attribute 'address'"

namespace Edge

def located (e : Edge Endpoint) : Except LooseEdge (Edge Location) :=
  match e.source, e.target with
  | .location source, .location target => .ok { e with source, target }
  | _, _ => .error ⟨e⟩

/-- The same edges, provided that all ends are locations. The first loose edge is refused. -/
def locatedAll : List (Edge Endpoint) → Except LooseEdge (List (Edge Location))
  | [] => .ok []
  | e :: es => do
      let first ← e.located
      return first :: (← locatedAll es)

def order (edges : List (Edge Endpoint)) : Except LooseEdge (List (Edge Location)) := do
  return arrange (← locatedAll edges)

end Edge

end Deadwood
