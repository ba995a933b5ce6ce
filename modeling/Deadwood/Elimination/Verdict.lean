import Deadwood.Liveness.Solver
import Deadwood.Program

namespace Deadwood

/-!
When an edge is dead: its statement cannot influence anything that is still needed.
-/

/-- One end of the edge lies in the region and the other does not. -/
def Edge.crosses (e : Edge Location) (region : Int → Bool) : Bool :=
  region e.source.address ≠ region e.target.address

/-- A jump that can be threaded: the only way out of its source, neither a call nor a return, and
with both ends on the same side of every stub and of the harness. -/
def Program.isThreadable (p : Program) (g : Graph Location) (e : Edge Location)
    (kind : BranchKind) : Bool :=
  g.outDegree e.source = 1 && kind = .ordinary && !e.crosses p.isStub && !e.crosses p.inHarness

/-- Whether an edge is dead: an assignment to a variable that is not live behind it, a skip, and
with jump threading a jump that can be threaded. The verdict on an assignment needs the live set
of the target; without one the target is reported. -/
def Program.isDead (p : Program) (threading : Bool) (g : Graph Location) (a : Analysis)
    (live : LiveMap Location) (e : Edge Location) : Except Location Bool :=
  match e.statement with
  | .assign lhs _ =>
      match live.get? e.target with
      | some behind => .ok (!a.isLive behind lhs)
      | none => .error e.target
  | .skip => .ok true
  | .assume _ kind => .ok (threading && p.isThreadable g e kind)
  | _ => .ok false

end Deadwood
