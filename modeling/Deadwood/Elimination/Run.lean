import Deadwood.Elimination.Pass

namespace Deadwood.Pass

/-!
A run of the elimination, and the moments at which it can be told to stop.
-/

/-- When cancellation is requested during a run: in one of its rounds, once so many live sets have
changed, or after so many removals. -/
structure Interrupts where
  inRound : Option (Nat × Nat) := none
  afterRemovals : Option Nat := none

/-- The change of live sets at which a round is told to stop. -/
def Interrupts.limit (i : Interrupts) (number : Nat) : Option Nat :=
  match i.inRound with
  | some (chosen, updates) => if chosen = number then some updates else none
  | none => none

/-- The state a run ends in, what it reported, and the error that ended it, if one did. -/
structure Run where
  pass : Pass
  events : List Event
  error : Option PassError

/-- Rounds from a given number on, until one removes nothing or the elimination is cancelled. -/
def rounds (p : Pass) (i : Interrupts) (number : Nat) : Run :=
  if p.cancelled then { pass := p, events := [], error := none }
  else
    let r := p.round (i.limit number) i.afterRemovals
    match ending : r.ending with
    | .failed error => { pass := r.pass, events := r.events, error := some error }
    | .stopped => { pass := r.pass, events := r.events, error := none }
    | .swept removals =>
        if done : removals = 0 then { pass := r.pass, events := r.events, error := none }
        else
          let left := { i with afterRemovals := i.afterRemovals.map (· - removals) }
          let rest := r.pass.rounds left (number + 1)
          { rest with events := r.events ++ rest.events }
termination_by p.graph.size
decreasing_by exact size_round_lt ending done

/-- Runs the elimination. A run that an error ends does not report that it has finished. -/
def run (p : Pass) (i : Interrupts) : Run :=
  let r := p.rounds i 1
  let closing := match r.error with
    | some _ => []
    | none => [.finished (r.pass.removed - p.removed) r.pass.iterations]
  { r with events := [.started] ++ r.events ++ closing }

/-- Requests cancellation from outside a run. -/
def interrupt (p : Pass) : Run := { pass := p.cancel, events := [.cancelRequested], error := none }

end Deadwood.Pass
