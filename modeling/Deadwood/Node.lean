namespace Deadwood

/-!
What the edges of a graph join. Graphs and the analysis on them need an order of the nodes, to visit
and list them by, and a text for each; nothing else about a node matters to them.
-/

/-- A node has a text, and nodes are linearly ordered. -/
class Node (ν : Type) extends Ord ν where
  text : ν → String
  transOrd : Std.TransOrd ν
  lawfulEqOrd : Std.LawfulEqOrd ν

attribute [instance] Node.transOrd Node.lawfulEqOrd

end Deadwood
