import Deadwood.Data.Position
import Deadwood.Data.Sort
import Deadwood.Var
import Deadwood.VarSet

namespace Deadwood

/-!
Universes hand out dense ids to variables on first use. An id never changes afterwards, so a set of
ids keeps its meaning while the universe grows.
-/

/-- The variables known so far; the id of a variable is its position. -/
structure Universe where
  vars : List Var
  distinct : (vars.map Var.name).Nodup

namespace Universe

def empty : Universe := ⟨[], .nil⟩

instance : Inhabited Universe := ⟨empty⟩

def size (u : Universe) : Nat := u.vars.length

def id? (u : Universe) (name : String) : Option Nat := u.vars.findIdx? (·.name = name)

def knows (u : Universe) (name : String) : Bool := (u.id? name).isSome

def var? (u : Universe) (id : Nat) : Option Var := u.vars[id]?

def varAt (u : Universe) (position : Int) : Except PositionError Var := elementAt u.vars position

theorem not_mem_of_id?_eq_none {u : Universe} {name : String} (unknown : u.id? name = none) :
    name ∉ u.vars.map Var.name := by
  simpa [id?, List.findIdx?_eq_none_iff] using unknown

/-- The id of a variable, given out now if it has none. The width first seen is kept. -/
def intern (u : Universe) (v : Var) : Nat × Universe :=
  match unknown : u.id? v.name with
  | some id => (id, u)
  | none =>
      (u.size,
        { vars := u.vars ++ [v]
          distinct := by
            have absent := not_mem_of_id?_eq_none unknown
            simp only [List.map_append, List.map_cons, List.map_nil]
            refine List.nodup_append.mpr ⟨u.distinct, by simp, ?_⟩
            intro a member b last
            rw [List.mem_singleton] at last
            exact fun same => absent (last ▸ same ▸ member) })

def internAll (u : Universe) : List Var → VarSet × Universe
  | [] => (∅, u)
  | v :: vs =>
      let (id, grown) := u.intern v
      let (rest, final) := grown.internAll vs
      (.singleton id ∪ rest, final)

def internNames (u : Universe) (names : List String) : VarSet × Universe :=
  u.internAll (names.map ({ name := · }))

/-- A universe that starts with the given variables, numbered in order of name. -/
def ofVars (vs : List Var) : Universe :=
  (empty.internAll (sort (fun v w => v.name ≤ w.name) vs)).2

/-- Whether the variable of that name is in the set. A name without an id is in none. -/
def holds (u : Universe) (s : VarSet) (name : String) : Bool := (u.id? name).any s.contains

def members (u : Universe) (s : VarSet) : List Var := s.ids.filterMap u.var?

def names (u : Universe) (s : VarSet) : NameSet :=
  SortedSet.ofList ((u.members s).map Var.name)

end Universe

end Deadwood
