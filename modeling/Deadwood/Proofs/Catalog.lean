import Deadwood.Universe.Workspace
import Deadwood.Proofs.Denotation

namespace Deadwood

/-!
Catalogs carry out the commands of a workspace on ordinary sets of names. Every workspace stands for
a catalog, and it does so still when its universes have grown.
-/

/-- An ordinary set of names together with the handle of its universe. -/
structure PlainSet where
  home : Nat
  names : Finset String
deriving DecidableEq

/-- The tables of ids serve the answers about ids and the order of listings. No set needs them. -/
structure Catalog where
  universes : List Universe := []
  handles : List (String × Nat) := []
  sets : List (String × PlainSet) := []

namespace Catalog

def empty : Catalog := {}

def universeAt (c : Catalog) (handle : Nat) : Universe := (c.universes[handle]?).getD .empty

def handleOf (c : Catalog) (name : String) : Except CommandError Nat :=
  match c.handles.lookup name with
  | some handle => .ok handle
  | none => .error (.unbound name)

def setOf (c : Catalog) (name : String) : Except CommandError PlainSet :=
  match c.sets.lookup name with
  | some found => .ok found
  | none => .error (.unbound name)

def grow (c : Catalog) (handle : Nat) (u : Universe) : Catalog :=
  { c with universes := c.universes.set handle u }

def viewOf (c : Catalog) (s : PlainSet) : SetView :=
  let u := c.universeAt s.home
  { members := u.vars.filter (·.name ∈ s.names), universeSize := u.size }

def resolve (c : Catalog) (handle : Nat) :
    Operand → Except CommandError (Finset String × Catalog)
  | .vars vs =>
      .ok ((vs.map Var.name).toFinset, c.grow handle ((c.universeAt handle).internAll vs).2)
  | .named name => do
      let other ← c.setOf name
      if other.home = handle then .ok (other.names, c) else .error .differentUniverses

def rebind (c : Catalog) (name : String) (s : PlainSet) : Answer × Catalog :=
  let c := { c with sets := (name, s) :: c.sets }
  (.view (c.viewOf s), c)

def update (c : Catalog) (name : String) (other : Operand)
    (change : Finset String → Finset String → Finset String) :
    Except CommandError (Answer × Catalog) := do
  let s ← c.setOf name
  let (operand, c) ← c.resolve s.home other
  return c.rebind name ⟨s.home, change s.names operand⟩

def run (c : Catalog) : Command → Except CommandError (Answer × Catalog)
  | .declare name vs =>
      let u := Universe.ofVars vs
      return (.number u.size,
        { c with
          universes := c.universes ++ [u]
          handles := (name, c.universes.length) :: c.handles })
  | .idOf home v => do
      let handle ← c.handleOf home
      let (id, u) := (c.universeAt handle).intern v
      return (.number id, c.grow handle u)
  | .varAt home position => do
      let handle ← c.handleOf home
      match (c.universeAt handle).varAt position with
      | .ok v => return (.var v, c)
      | .error cause => .error (.position cause)
  | .knows home v => do
      let handle ← c.handleOf home
      return (.truth ((c.universeAt handle).knows v.name), c)
  | .sizeOf home => do
      let handle ← c.handleOf home
      return (.number (c.universeAt handle).size, c)
  | .create set home start => do
      let handle ← c.handleOf home
      let (names, c) ← c.resolve handle (start.getD (.vars []))
      return c.rebind set ⟨handle, names⟩
  | .add set v => c.update set (.vars [v]) (· ∪ ·)
  | .remove set v => c.update set (.vars [v]) (· \ ·)
  | .addAll set other => c.update set other (· ∪ ·)
  | .removeAll set other => c.update set other (· \ ·)
  | .copy set target => do
      let s ← c.setOf set
      return c.rebind target s
  | .has set v => do
      let s ← c.setOf set
      return (.truth (v.name ∈ s.names), c)
  -- A list of variables is no set, so no set is equal to it.
  | .same set (.vars _) => do
      let _ ← c.setOf set
      return (.truth false, c)
  | .same set (.named other) => do
      let s ← c.setOf set
      let t ← c.setOf other
      return (.truth (decide (s = t)), c)
  | .subset set other => do
      let s ← c.setOf set
      let (operand, c) ← c.resolve s.home other
      return (.truth (decide (s.names ⊆ operand)), c)
  | .view set => do
      let s ← c.setOf set
      return (.view (c.viewOf s), c)

/-- The catalog after a command. One that fails leaves it as it was. -/
def perform (c : Catalog) (command : Command) : Catalog :=
  match c.run command with
  | .ok (_, next) => next
  | .error _ => c

def performAll (c : Catalog) (commands : List Command) : Catalog := commands.foldl perform c

end Catalog

/-- The set that a command gives new members. -/
def Command.written : Command → Option String
  | .create set _ _ | .add set _ | .remove set _ | .addAll set _ | .removeAll set _ => some set
  | .copy _ target => some target
  | _ => none

namespace Workspace

variable {w next : Workspace} {name : String} {s t : HomedSet} {handle : Nat} {u : Universe}

/-- The workspace after a command. One that fails leaves it as it was. -/
def perform (w : Workspace) (command : Command) : Workspace :=
  match w.run command with
  | .ok (_, next) => next
  | .error _ => w

def performAll (w : Workspace) (commands : List Command) : Workspace := commands.foldl perform w

def plainOf (w : Workspace) (s : HomedSet) : PlainSet :=
  ⟨s.home, (w.universeAt s.home).nameSet s.members⟩

/-- The catalog of what the sets stand for. -/
def plain (w : Workspace) : Catalog where
  universes := w.universes
  handles := w.handles
  sets := w.sets.map (Prod.map id w.plainOf)

theorem lookup_plain (w : Workspace) (name : String) :
    w.plain.sets.lookup name = (w.sets.lookup name).map w.plainOf := by
  unfold plain
  dsimp only
  induction w.sets with
  | nil => rfl
  | cons entry rest ih =>
      obtain ⟨key, s⟩ := entry
      cases found : name == key with
      | true => simp [List.lookup_cons, found]
      | false => simp [List.lookup_cons, found, ih]

/-- Handles lead to universes, and sets have only ids that their universe has given out. -/
structure Sound (w : Workspace) : Prop where
  handles : ∀ entry ∈ w.handles, entry.2 < w.universes.length
  homes : ∀ entry ∈ w.sets, entry.2.home < w.universes.length
  bounds : ∀ entry ∈ w.sets, (w.universeAt entry.2.home).Bounds entry.2.members

/-- Every universe stays where it is and at most grows. -/
structure Extends (w next : Workspace) : Prop where
  length_le : w.universes.length ≤ next.universes.length
  grows : ∀ handle < w.universes.length, (w.universeAt handle).GrowsTo (next.universeAt handle)

theorem universeAt_grow_self (inside : handle < w.universes.length) :
    (w.grow handle u).universeAt handle = u := by
  simp [universeAt, grow, inside]

theorem universeAt_grow_of_ne {other : Nat} (apart : other ≠ handle) :
    (w.grow handle u).universeAt other = w.universeAt other := by
  simp [universeAt, grow, Ne.symm apart]

theorem Extends.refl (w : Workspace) : w.Extends w := ⟨Nat.le_refl _, fun _ _ => .refl _⟩

theorem Extends.trans {last : Workspace} (first : w.Extends next) (second : next.Extends last) :
    w.Extends last where
  length_le := Nat.le_trans first.length_le second.length_le
  grows handle inside :=
    (first.grows handle inside).trans
      (second.grows handle (Nat.lt_of_lt_of_le inside first.length_le))

theorem extends_grow (grown : (w.universeAt handle).GrowsTo u) : w.Extends (w.grow handle u) := by
  refine ⟨by simp [grow], fun other inside => ?_⟩
  by_cases same : other = handle
  · subst same
    rw [universeAt_grow_self inside]
    exact grown
  · rw [universeAt_grow_of_ne same]
    exact .refl _

/-- A set keeps its names while universes grow. -/
theorem Sound.plainOf_eq (sound : w.Sound) (grown : w.Extends next) {entry : String × HomedSet}
    (member : entry ∈ w.sets) : next.plainOf entry.2 = w.plainOf entry.2 := by
  have kept := grown.grows _ (sound.homes entry member)
  rw [plainOf, plainOf, kept.nameSet_eq (sound.bounds entry member)]

theorem Sound.map_plainOf (sound : w.Sound) (grown : w.Extends next) :
    w.sets.map (Prod.map id next.plainOf) = w.plain.sets := by
  apply List.map_congr_left
  intro entry member
  rw [Prod.map, Prod.map, sound.plainOf_eq grown member]

theorem Sound.of_extends (sound : w.Sound) (grown : w.Extends next) (sets : next.sets = w.sets)
    (handles : ∀ entry ∈ next.handles, entry.2 < next.universes.length) : next.Sound where
  handles := handles
  homes entry member := by
    rw [sets] at member
    exact Nat.lt_of_lt_of_le (sound.homes entry member) grown.length_le
  bounds entry member := by
    rw [sets] at member
    exact (sound.bounds entry member).mono (grown.grows _ (sound.homes entry member))

end Workspace

end Deadwood
