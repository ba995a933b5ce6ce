import Deadwood.Expr

namespace Deadwood

/-!
Register transfer statements, with the variables each one defines and reads.
-/

/-- Why control leaves along an edge. -/
inductive BranchKind where
  | ordinary
  | call
  | ret
deriving DecidableEq, Repr

namespace BranchKind

def name : BranchKind → String
  | ordinary => "ORDINARY"
  | call => "CALL"
  | ret => "RETURN"

def code : BranchKind → Nat
  | ordinary => 0
  | call => 1
  | ret => 2

def describe (kind : BranchKind) : String :=
  "<BranchKind." ++ kind.name ++ ": " ++ toString kind.code ++ ">"

end BranchKind

/-- Statements that agree in every part are the same statement: variables count by name, and the
variables an unknown procedure clobbers are a set. -/
inductive Statement where
  | assign (lhs : String) (rhs : Expr)
  | store (target value : Expr)
  | assume (condition : Expr) (kind : BranchKind)
  | skip
  | halt
  | call (clobbered : NameSet)
  | foreign (name : String)
deriving DecidableEq

namespace Statement

def always : Expr := .const 1 1

def text : Statement → String
  | assign lhs rhs => lhs ++ " := " ++ rhs.text
  | store target value => target.text ++ " := " ++ value.text
  | assume condition .ordinary => "assume " ++ condition.text
  | assume condition kind => "assume " ++ condition.text ++ " [" ++ kind.name ++ "]"
  | skip => "skip"
  | halt => "halt"
  | call _ => "call ???"
  | foreign name => foreignText name

def describeNames (names : NameSet) : String :=
  if names.isEmpty then "frozenset()"
  else "frozenset(\x7b" ++ ", ".intercalate names.toList ++ "\x7d)"

def describe : Statement → String
  | assign lhs rhs => "Assignment(lhs=" ++ lhs ++ ", rhs=" ++ rhs.describe ++ ")"
  | store target value =>
      "MemoryAssignment(target=" ++ target.describe ++ ", value=" ++ value.describe ++ ")"
  | assume condition kind =>
      "Assume(condition=" ++ condition.describe ++ ", kind=" ++ kind.describe ++ ")"
  | skip => "Skip()"
  | halt => "Halt()"
  | call clobbered => "UnknownProcedureCall(clobbered=" ++ describeNames clobbered ++ ")"
  | foreign name => foreignText name

def defines : Statement → Except Unsupported (List String)
  | assign lhs _ => .ok [lhs]
  | call clobbered => .ok clobbered.toList
  | store _ _ | assume _ _ | skip | halt => .ok []
  | foreign name => .error (.definitions name)

/-- The variables a statement names as operands. An unknown procedure names none; what it may read
depends on the registers of the machine. -/
def reads : Statement → Except Unsupported (List String)
  | assign _ rhs => rhs.reads
  | store target value => do return (← target.reads) ++ (← value.reads)
  | assume condition _ => condition.reads
  | skip | halt | call _ => .ok []
  | foreign name => .error (.reads name)

def IsNative : Statement → Prop
  | assign _ rhs => rhs.IsNative
  | store target value => target.IsNative ∧ value.IsNative
  | assume condition _ => condition.IsNative
  | skip | halt | call _ => True
  | foreign _ => False

instance : DecidablePred IsNative := fun s => by
  cases s <;> simp only [IsNative] <;> infer_instance

theorem reads_isOk_iff {s : Statement} : (∃ names, s.reads = .ok names) ↔ s.IsNative := by
  cases s with
  | assign _ rhs => exact Expr.reads_isOk_iff
  | store target value =>
      rw [IsNative, ← Expr.reads_isOk_iff, ← Expr.reads_isOk_iff]
      cases foundTarget : target.reads <;> cases foundValue : value.reads <;>
        simp [reads, foundTarget, foundValue, bind, Except.bind, pure, Except.pure]
  | assume condition _ => exact Expr.reads_isOk_iff
  | skip | halt | call | foreign => simp [reads, IsNative]

theorem defines_isOk_of_isNative {s : Statement} (native : s.IsNative) :
    ∃ names, s.defines = .ok names := by
  cases s <;> simp_all [defines, IsNative]

end Statement

end Deadwood
