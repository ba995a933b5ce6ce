import Deadwood.Edge
import Deadwood.Text.Banner

namespace Deadwood

/-!
What is reported while liveness is computed and dead edges are eliminated.
-/

inductive Level where
  | debug
  | info
  | warning
deriving DecidableEq

def Level.name : Level → String
  | debug => "DEBUG"
  | info => "INFO"
  | warning => "WARNING"

inductive Event where
  | started
  | interrupted (pending : Nat)
  | merged (e : Edge Location)
  | removed (e : Edge Location)
  | round (number updates dead removals : Nat)
  | cancelRequested
  | finished (total iterations : Nat)
deriving DecidableEq

namespace Event

def level : Event → Level
  | started | finished _ _ => .info
  | cancelRequested => .warning
  | _ => .debug

/-- The line an event leaves in a report. At the end of a run it says how many milliseconds have
elapsed. -/
def message (elapsed : Nat) : Event → String
  | started => "Eliminating dead code"
  | interrupted pending =>
      "Fixpoint interrupted with " ++ toString pending ++ " pending locations"
  | merged e => "Merged " ++ e.text
  | removed e => "Removed " ++ e.text
  | round number updates dead removals =>
      "Round " ++ toString number ++ ": " ++ toString updates ++ " updates, " ++ toString dead ++
        " dead edges, " ++ toString removals ++ " removed"
  | cancelRequested => "\n" ++ Text.box "Interrupt! Stopping Dead Code Elimination!"
  | finished total iterations =>
      "Removed " ++ toString total ++ " edges, finished after " ++ toString elapsed ++ "ms and " ++
        toString iterations ++ " iterations."

end Event

end Deadwood
