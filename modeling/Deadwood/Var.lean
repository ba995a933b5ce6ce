import Deadwood.Data.SortedSet

namespace Deadwood

/-!
Variables are identified by name. A width belongs to the declaration of a register, not to its
uses, so expressions and statements refer to a variable by its name alone.
-/

abbrev NameSet := SortedSet String

/-- A declared variable with its width in bits. -/
structure Var where
  name : String
  width : Int := 32
deriving DecidableEq, Repr

def NameSet.text (s : NameSet) : String := "VarSet(" ++ ", ".intercalate s.toList ++ ")"

end Deadwood
