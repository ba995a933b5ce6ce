import Deadwood.Architecture
import Deadwood.Statement

namespace Deadwood.Architecture

/-!
What a statement does to liveness. Registers overlap: giving a register a value ends the life of
every register it contains, and reading a register keeps every register that contains it alive.
-/

/-- The variables whose value before the statement no longer matters: those it defines and all they
contain. -/
def kills (a : Architecture) (s : Statement) : Except Unsupported (List String) := do
  return (← s.defines).flatMap fun v => v :: a.covered v

/-- The variables whose value before the statement matters: those it reads and all that contain
them. An unknown procedure may read any register. -/
def generates (a : Architecture) (s : Statement) : Except Unsupported (List String) := do
  let read := (← s.reads).flatMap fun v => v :: a.covering v
  return match s with
    | .call _ => read ++ a.registerNames
    | _ => read

end Deadwood.Architecture
