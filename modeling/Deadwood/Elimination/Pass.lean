import Deadwood.Elimination.Contraction
import Deadwood.Elimination.Verdict

namespace Deadwood

/-!
The elimination of dead edges from a control flow graph. A round computes liveness from a fresh
start, collects the edges that are dead under it, and contracts the graph around each of them whose
source has no other way out. Rounds follow each other until one removes nothing.
-/

/-- The state of an elimination. The ids of the edges that are left are kept in the order of the first
listing, which decides between edges that later listings do not tell apart. Every round has a
schedule of its own for its visits. -/
structure Pass where
  program : Program
  threading : Bool
  schedule : Nat → Schedule Location
  order : List Nat
  graph : Graph Location
  analysis : Analysis
  live : LiveMap Location
  removed : Nat
  iterations : Nat
  cancelled : Bool

/-- Why an elimination ended before its time. -/
inductive PassError where
  | analysis (failure : Failure Location)
  | missing (location : Location)
  | unfinished

def PassError.message : PassError → String
  | analysis failure => failure.cause.message
  | missing location => location.text
  | unfinished => "Liveness took more visits than were granted"

namespace Pass

def ofEdges (program : Program) (threading : Bool) (edges : List (Edge Location)) : Pass :=
  let arranged := Edge.arrange edges
  { program
    threading
    schedule := fun _ => .smallest
    order := arranged.map Edge.id
    graph := .ofEdges arranged
    analysis := .ofArchitecture program.architecture
    live := ∅
    removed := 0
    iterations := 0
    cancelled := false }

/-- An elimination of edges as they are handed in. -/
def ofLoose (program : Program) (threading : Bool) (edges : List (Edge Endpoint)) :
    Except LooseEdge Pass := do
  return ofEdges program threading (← Edge.locatedAll edges)

/-- The edges that are left, in the order of a listing. -/
def edges (p : Pass) : List (Edge Location) := sort Edge.keyLe (p.order.filterMap p.graph.find?)

def restart (p : Pass) (threading : Bool) : Pass :=
  { ofEdges p.program threading p.edges with schedule := p.schedule }

/-- Asks the elimination to stop. The request is never withdrawn. -/
def cancel (p : Pass) : Pass := { p with cancelled := true }

def liveNames (p : Pass) (l : Location) : Option NameSet := (p.live.get? l).map p.analysis.names

def isDead (p : Pass) (e : Edge Location) : Except Location Bool :=
  p.program.isDead p.threading p.graph p.analysis p.live e

def deadAmong (p : Pass) : List (Edge Location) → Except Location (List (Edge Location))
  | [] => .ok []
  | e :: es => do
      let dead ← p.isDead e
      let others ← p.deadAmong es
      return if dead then e :: others else others

def deadEdges (p : Pass) : Except Location (List (Edge Location)) := p.deadAmong p.edges

/-- An edge that was removed, with those merged on the way, and what is left. -/
structure Removal where
  edge : Edge Location
  merged : List (Edge Location)
  pass : Pass

/-- The edge with an id, as long as it is listed. -/
def find? (p : Pass) (id : Nat) : Option (Edge Location) :=
  if id ∈ p.order then p.graph.find? id else none

/-- Removes an edge by contraction, and takes it and the edges merged out of the listing. An edge that
is gone already, or that is one of several ways out of its source, is left alone. -/
def remove? (p : Pass) (id : Nat) : Option Removal :=
  match p.find? id with
  | none => none
  | some edge =>
      if p.graph.outDegree edge.source > 1 then none
      else
        let (left, merged) := LiveGraph.contract ⟨p.graph, p.live⟩ edge
        some
          { edge
            merged
            pass :=
              { p with
                order := p.order.filter (· ∉ (edge :: merged).map Edge.id)
                graph := left.graph
                live := left.live
                removed := p.removed + 1 + merged.length } }

def Removal.events (r : Removal) : List Event := r.merged.map .merged ++ [.removed r.edge]

/-- The state after some removals, what they reported, and how many there were. -/
structure Sweep where
  pass : Pass
  events : List Event
  removals : Nat

/-- Removes those of the given edges that can be. A countdown that comes to its end requests
cancellation, right after the removal that ended it; the sweep goes on all the same. -/
def sweep (p : Pass) (countdown : Option Nat) : List (Edge Location) → Sweep
  | [] => { pass := p, events := [], removals := 0 }
  | e :: es =>
      match p.remove? e.id with
      | none => p.sweep countdown es
      | some removal =>
          let request := countdown = some 1
          let rest := (if request then removal.pass.cancel else removal.pass).sweep
            (countdown.map (· - 1)) es
          { pass := rest.pass
            events := removal.events ++ (if request then [.cancelRequested] else []) ++ rest.events
            removals := rest.removals + 1 }

/-- How a round ends: an error stops it, cancellation stops it before anything is removed, or it
is carried through. -/
inductive RoundEnd where
  | failed (error : PassError)
  | stopped
  | swept (removals : Nat)

structure Round where
  pass : Pass
  events : List Event
  ending : RoundEnd

/-- The state after liveness has been computed, and what that reported. -/
structure Analyzed where
  pass : Pass
  outcome : Outcome Location
  events : List Event

/-- Computes liveness from a fresh start. With a limit, cancellation is requested as soon as that
many live sets have changed. -/
def analyze (p : Pass) (limit : Option Nat) : Analyzed :=
  let outcome := (Solver.seed p.graph p.analysis).run p.graph (p.schedule p.iterations) limit
  let request := limit = some outcome.updates
  { pass :=
      { p with
        analysis := outcome.solver.analysis
        live := outcome.solver.live
        cancelled := p.cancelled || request }
    outcome
    events := (if request then [.cancelRequested] else []) ++ outcome.events }

def eliminate (p : Pass) (updates : Nat) (countdown : Option Nat) : Round :=
  match p.deadEdges with
  | .error location => { pass := p, events := [], ending := .failed (.missing location) }
  | .ok dead =>
      let swept := p.sweep countdown dead
      { pass := swept.pass
        events := swept.events ++ [.round p.iterations updates dead.length swept.removals]
        ending := .swept swept.removals }

def round (p : Pass) (limit countdown : Option Nat) : Round :=
  let analyzed := { p with iterations := p.iterations + 1 }.analyze limit
  match analyzed.outcome.ending with
  | .failed failure =>
      { pass := analyzed.pass, events := analyzed.events, ending := .failed (.analysis failure) }
  | .unfinished =>
      { pass := analyzed.pass, events := analyzed.events, ending := .failed .unfinished }
  | .converged | .interrupted =>
      if analyzed.pass.cancelled then
        { pass := analyzed.pass, events := analyzed.events, ending := .stopped }
      else
        let rest := analyzed.pass.eliminate analyzed.outcome.updates countdown
        { rest with events := analyzed.events ++ rest.events }

theorem find?_eq_some_iff {p : Pass} {id : Nat} {e : Edge Location} :
    p.find? id = some e ↔ id ∈ p.order ∧ e ∈ p.graph.edges ∧ e.id = id := by
  unfold find?
  split
  case isTrue listed => simp [listed, Graph.find?_eq_some_iff]
  case isFalse unlisted => simp [unlisted]

/-- An edge is removed if it is listed and in the graph and no other edge leaves its source; what is
left is the contraction around it. -/
theorem remove?_eq_some_iff {p : Pass} {id : Nat} {r : Removal} :
    p.remove? id = some r ↔
      p.find? id = some r.edge ∧ p.graph.outDegree r.edge.source ≤ 1 ∧
        r.merged = (LiveGraph.contract ⟨p.graph, p.live⟩ r.edge).2 ∧
        r.pass =
          { p with
            order := p.order.filter (· ∉ (r.edge :: r.merged).map Edge.id)
            graph := (LiveGraph.contract ⟨p.graph, p.live⟩ r.edge).1.graph
            live := (LiveGraph.contract ⟨p.graph, p.live⟩ r.edge).1.live
            removed := p.removed + 1 + r.merged.length } := by
  obtain ⟨edge, merged, pass⟩ := r
  unfold remove?
  cases found : p.find? id with
  | none => simp
  | some first =>
      by_cases branching : p.graph.outDegree first.source > 1
      · simp only [branching, if_true, Option.some.injEq]
        grind
      · simp only [branching, if_false, Option.some.injEq, Removal.mk.injEq]
        constructor
        · rintro ⟨rfl, rfl, rfl⟩
          exact ⟨rfl, by omega, rfl, rfl⟩
        · rintro ⟨rfl, _, rfl, left⟩
          exact ⟨rfl, rfl, left.symm⟩

theorem size_remove?_lt {p : Pass} {id : Nat} {r : Removal} (removed : p.remove? id = some r) :
    r.pass.graph.size < p.graph.size := by
  obtain ⟨found, _, _, left⟩ := remove?_eq_some_iff.mp removed
  obtain ⟨_, member, _⟩ := find?_eq_some_iff.mp found
  rw [left]
  exact LiveGraph.size_contract_lt (s := ⟨p.graph, p.live⟩)
    (Graph.find?_eq_some_iff.mpr ⟨member, rfl⟩)

/-- Every removal makes the graph smaller. -/
theorem size_sweep_le (p : Pass) (countdown : Option Nat) (es : List (Edge Location)) :
    (p.sweep countdown es).pass.graph.size + (p.sweep countdown es).removals ≤ p.graph.size := by
  induction es generalizing p countdown with
  | nil => simp [sweep]
  | cons e es ih =>
      cases removed : p.remove? e.id with
      | none =>
          simp only [sweep, removed]
          exact ih p countdown
      | some r =>
          have smaller := size_remove?_lt removed
          simp only [sweep, removed]
          have rest := ih (if countdown = some 1 then r.pass.cancel else r.pass)
            (countdown.map (· - 1))
          have unchanged : (if countdown = some 1 then r.pass.cancel else r.pass).graph =
              r.pass.graph := by split <;> rfl
          rw [unchanged] at rest
          omega

theorem size_eliminate_lt {p : Pass} {updates : Nat} {countdown : Option Nat} {removals : Nat}
    (swept : (p.eliminate updates countdown).ending = .swept removals) (progress : removals ≠ 0) :
    (p.eliminate updates countdown).pass.graph.size < p.graph.size := by
  unfold eliminate at swept ⊢
  split at swept
  · cases swept
  case h_2 dead judged =>
    cases swept
    have := p.size_sweep_le countdown dead
    dsimp only
    omega

/-- A round that removes something leaves a smaller graph. -/
theorem size_round_lt {p : Pass} {limit countdown : Option Nat} {removals : Nat}
    (swept : (p.round limit countdown).ending = .swept removals) (progress : removals ≠ 0) :
    (p.round limit countdown).pass.graph.size < p.graph.size := by
  unfold round at swept ⊢
  dsimp only at swept ⊢
  split at swept <;> try contradiction
  all_goals
    split at swept
    · contradiction
    case isFalse running =>
      rw [if_neg running]
      exact size_eliminate_lt swept progress

end Pass

end Deadwood
