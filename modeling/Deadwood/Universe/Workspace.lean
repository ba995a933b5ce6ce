import Deadwood.Universe

namespace Deadwood

/-!
Named universes and named sets over them, and the commands that work on both. Several sets may
share a universe, and a universe stays in use after its name has been given to another one.
-/

/-- A set together with the handle of its universe. -/
structure HomedSet where
  home : Nat
  members : VarSet
deriving DecidableEq

/-- The other side of a set operation: variables as they come, or a named set. -/
inductive Operand where
  | vars (vs : List Var)
  | named (set : String)

inductive Command where
  | declare (name : String) (vs : List Var)
  | idOf (home : String) (v : Var)
  | varAt (home : String) (position : Int)
  | knows (home : String) (v : Var)
  | sizeOf (home : String)
  | create (set home : String) (start : Option Operand)
  | add (set : String) (v : Var)
  | remove (set : String) (v : Var)
  | addAll (set : String) (other : Operand)
  | removeAll (set : String) (other : Operand)
  | copy (set target : String)
  | has (set : String) (v : Var)
  | same (set : String) (other : Operand)
  | subset (set : String) (other : Operand)
  | view (set : String)

/-- What can be seen of a set: its members by ascending id, and the size of its universe. -/
structure SetView where
  members : List Var
  universeSize : Nat

def SetView.names (v : SetView) : NameSet := SortedSet.ofList (v.members.map Var.name)

inductive Answer where
  | number (n : Nat)
  | var (v : Var)
  | truth (b : Bool)
  | view (v : SetView)

inductive CommandError where
  | unbound (name : String)
  | differentUniverses
  | position (cause : PositionError)

def CommandError.message : CommandError → String
  | unbound name => name
  | differentUniverses => "VarSets over different universes"
  | position cause => cause.message

/-- Universes live under handles, their positions in order of creation. Of several bindings of a
name the first in the list counts. -/
structure Workspace where
  universes : List Universe := []
  handles : List (String × Nat) := []
  sets : List (String × HomedSet) := []

namespace Workspace

def empty : Workspace := {}

def universeAt (w : Workspace) (handle : Nat) : Universe := (w.universes[handle]?).getD .empty

def handleOf (w : Workspace) (name : String) : Except CommandError Nat :=
  match w.handles.lookup name with
  | some handle => .ok handle
  | none => .error (.unbound name)

def setOf (w : Workspace) (name : String) : Except CommandError HomedSet :=
  match w.sets.lookup name with
  | some found => .ok found
  | none => .error (.unbound name)

def grow (w : Workspace) (handle : Nat) (u : Universe) : Workspace :=
  { w with universes := w.universes.set handle u }

def bind (w : Workspace) (name : String) (s : HomedSet) : Workspace :=
  { w with sets := (name, s) :: w.sets }

def viewOf (w : Workspace) (s : HomedSet) : SetView :=
  let u := w.universeAt s.home
  { members := u.members s.members, universeSize := u.size }

/-- The bits of an operand in the universe of a handle. Variables are interned there; a set has to
live there already. -/
def resolve (w : Workspace) (handle : Nat) : Operand → Except CommandError (VarSet × Workspace)
  | .vars vs =>
      let (s, u) := (w.universeAt handle).internAll vs
      .ok (s, w.grow handle u)
  | .named name => do
      let other ← w.setOf name
      if other.home = handle then .ok (other.members, w) else .error .differentUniverses

/-- Gives a set new members and shows it. -/
def rebind (w : Workspace) (name : String) (home : Nat) (members : VarSet) : Answer × Workspace :=
  let w := w.bind name ⟨home, members⟩
  (.view (w.viewOf ⟨home, members⟩), w)

/-- Changes a named set by the bits of an operand. -/
def update (w : Workspace) (name : String) (other : Operand) (change : VarSet → VarSet → VarSet) :
    Except CommandError (Answer × Workspace) := do
  let s ← w.setOf name
  let (operand, w) ← w.resolve s.home other
  return w.rebind name s.home (change s.members operand)

/-- Carries out a command. One that fails changes nothing. -/
def run (w : Workspace) : Command → Except CommandError (Answer × Workspace)
  | .declare name vs =>
      let u := Universe.ofVars vs
      return (.number u.size,
        { w with
          universes := w.universes ++ [u]
          handles := (name, w.universes.length) :: w.handles })
  | .idOf home v => do
      let handle ← w.handleOf home
      let (id, u) := (w.universeAt handle).intern v
      return (.number id, w.grow handle u)
  | .varAt home position => do
      let handle ← w.handleOf home
      match (w.universeAt handle).varAt position with
      | .ok v => return (.var v, w)
      | .error cause => .error (.position cause)
  | .knows home v => do
      let handle ← w.handleOf home
      return (.truth ((w.universeAt handle).knows v.name), w)
  | .sizeOf home => do
      let handle ← w.handleOf home
      return (.number (w.universeAt handle).size, w)
  | .create set home start => do
      let handle ← w.handleOf home
      let (members, w) ← w.resolve handle (start.getD (.vars []))
      return w.rebind set handle members
  | .add set v => w.update set (.vars [v]) (· ∪ ·)
  | .remove set v => w.update set (.vars [v]) (· \ ·)
  | .addAll set other => w.update set other (· ∪ ·)
  | .removeAll set other => w.update set other (· \ ·)
  | .copy set target => do
      let s ← w.setOf set
      return w.rebind target s.home s.members
  | .has set v => do
      let s ← w.setOf set
      return (.truth ((w.universeAt s.home).holds s.members v.name), w)
  | .same set (.vars _) => do
      let _ ← w.setOf set
      return (.truth false, w)
  | .same set (.named other) => do
      let s ← w.setOf set
      let t ← w.setOf other
      return (.truth (decide (s = t)), w)
  | .subset set other => do
      let s ← w.setOf set
      let (operand, w) ← w.resolve s.home other
      return (.truth (s.members.isSubset operand), w)
  | .view set => do
      let s ← w.setOf set
      return (.view (w.viewOf s), w)

end Workspace

end Deadwood
