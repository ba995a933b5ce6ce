import Deadwood.Edge

namespace Deadwood

/-!
The listing of a control flow graph: one block per source, with the variables live there if they
are known, and one line per edge.
-/

namespace Listing

variable {ν : Type} [Node ν]

def edgeLine (e : Edge ν) : String :=
  "\t-> " ++ Node.text e.target ++ "\t" ++ e.statement.text ++ "\n"

def liveLine : Option NameSet → String
  | some names => "\tlive: " ++ names.text ++ "\n"
  | none => ""

def block (live : ν → Option NameSet) : List (Edge ν) → String
  | [] => ""
  | e :: es =>
      Node.text e.source ++ " :\n" ++ liveLine (live e.source) ++
        String.join ((e :: es).map edgeLine) ++ "\n"

def blocks [DecidableEq ν] (edges : List (Edge ν)) (live : ν → Option NameSet) : String :=
  String.join ((edges.splitBy fun e f => e.source = f.source).map (block live))

def render [DecidableEq ν] (edges : List (Edge ν)) (live : ν → Option NameSet) : String :=
  blocks (sort Edge.keyLe edges) live

/-- Whether an edge goes before one that came earlier: by source, then by target, then by the text
of the statement. -/
def lt? (later earlier : Edge Endpoint) : Except Incomparable Bool :=
  if later.source ≠ earlier.source then later.source.lt? earlier.source
  else if later.target ≠ earlier.target then later.target.lt? earlier.target
  else .ok (later.statement.text < earlier.statement.text)

/-- The listing of edges as they are handed in. Their ends have to be of one kind as far as they
decide the order. -/
def renderLoose (edges : List (Edge Endpoint)) (live : Endpoint → Option NameSet) :
    Except Incomparable String := do
  return blocks (← runSort lt? edges) live

end Listing

end Deadwood
