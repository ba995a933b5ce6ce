import Deadwood.Liveness.Effects
import Deadwood.Universe

namespace Deadwood

/-!
Backward liveness of one statement, over sets of variable ids. An analysis numbers the variables it
meets and remembers the effects of every statement it has seen; neither shows in the sets of names
it computes.
-/

/-- What a statement removes from a live set, and then adds to it. -/
structure Effects where
  kill : VarSet
  gen : VarSet
deriving DecidableEq

def Effects.apply (e : Effects) (live : VarSet) : VarSet := (live \ e.kill) ∪ e.gen

/-- Why live sets have no join: none was given. -/
inductive JoinError where
  | nothingToJoin
deriving DecidableEq

def JoinError.message : JoinError → String
  | nothingToJoin => "Lattice.join_all() missing 1 required positional argument: 'inv'"

structure Analysis where
  architecture : Architecture
  table : Universe
  registers : VarSet
  memo : List (Statement × Effects)

namespace Analysis

def title : String := "Liveness"

def isBackward : Bool := true

def ofArchitecture (architecture : Architecture) : Analysis :=
  let declared := architecture.registers
  let (registers, table) := (Universe.ofVars declared).internAll declared
  { architecture, table, registers, memo := [] }

def bottom : VarSet := ∅

/-- Where the program ends, whoever called it may look at any register. -/
def atExit (a : Analysis) : VarSet := a.registers

def join (s t : VarSet) : VarSet := s ∪ t

def joinAll : List VarSet → Except JoinError VarSet
  | [] => .error .nothingToJoin
  | first :: others => .ok (others.foldl join first)

def intern (a : Analysis) (vs : List Var) : VarSet × Analysis :=
  let (s, table) := a.table.internAll vs
  (s, { a with table })

def names (a : Analysis) (s : VarSet) : NameSet := a.table.names s

def isLive (a : Analysis) (s : VarSet) (name : String) : Bool := a.table.holds s name

/-- The effects of a statement that has not been seen before. A statement that fails may leave the
variables it defines numbered. -/
def freshEffects (a : Analysis) (s : Statement) : Except Unsupported Effects × Analysis :=
  match a.architecture.kills s with
  | .error cause => (.error cause, a)
  | .ok killed =>
      let (kill, table) := a.table.internNames killed
      match a.architecture.generates s with
      | .error cause => (.error cause, { a with table })
      | .ok generated =>
          let (gen, table) := table.internNames generated
          (.ok { kill, gen }, { a with table, memo := (s, { kill, gen }) :: a.memo })

def effects (a : Analysis) (s : Statement) : Except Unsupported Effects × Analysis :=
  match a.memo.lookup s with
  | some known => (.ok known, a)
  | none => a.freshEffects s

/-- What is live before a statement, given what is live after it. -/
def transfer (a : Analysis) (live : VarSet) (s : Statement) :
    Except Unsupported VarSet × Analysis :=
  let (found, a) := a.effects s
  (found.map (·.apply live), a)

end Analysis

end Deadwood
