import Deadwood.Coverage
import Deadwood.Data.Sort
import Deadwood.Text.Quoted
import Deadwood.Var

namespace Deadwood

/-!
The registers of a machine and how they overlap. Every value of `Architecture` has passed the
checks: registers have distinct names, no register contains itself, and coverage speaks of
registers only.
-/

/-- The variables with the first declaration of each name. -/
def distinctVars : List Var → List Var
  | [] => []
  | v :: vs => v :: (distinctVars vs).filter (·.name ≠ v.name)

theorem distinctVars_nodup (vs : List Var) : ((distinctVars vs).map Var.name).Nodup := by
  induction vs with
  | nil => simp [distinctVars]
  | cons v vs ih =>
      rw [distinctVars, List.map_cons, List.nodup_cons]
      refine ⟨by simp, ?_⟩
      exact ((List.filter_sublist (p := (·.name ≠ v.name))).map Var.name).nodup ih

structure Architecture where
  name : String
  registers : List Var
  coverage : Coverage
  distinct : (registers.map Var.name).Nodup
  acyclic : ∀ v ∈ coverage.mentioned, v ∉ coverage.below v
  declared : ∀ v ∈ coverage.mentioned, v ∈ registers.map Var.name

/-- Why a description of registers and coverage is no architecture. -/
inductive Refusal where
  | cycle (architecture : String)
  | undeclared (names : NameSet)

def Refusal.message : Refusal → String
  | cycle architecture => "Coverage relation of " ++ architecture ++ " has a cycle"
  | undeclared names =>
      "Coverage mentions non-registers: [" ++ ", ".intercalate (names.toList.map Text.quoted) ++ "]"

namespace Architecture

/-- Checks a description. A cycle is reported before undeclared registers. -/
def ofDescription (name : String) (registers : List Var)
    (declarations : List (String × List String)) : Except Refusal Architecture :=
  let coverage := Coverage.ofDeclarations declarations
  let registers := distinctVars registers
  if acyclic : ∀ v ∈ coverage.mentioned, v ∉ coverage.below v then
    if declared : ∀ v ∈ coverage.mentioned, v ∈ registers.map Var.name then
      .ok { name, registers, coverage, distinct := distinctVars_nodup _, acyclic, declared }
    else
      .error (.undeclared
        (SortedSet.ofList (coverage.mentioned.filter (· ∉ registers.map Var.name))))
  else
    .error (.cycle name)

/-- What a variable contains. Variables that are no registers contain nothing. -/
def covered (a : Architecture) (v : String) : List String := a.coverage.below v

/-- What contains a variable. Variables that are no registers are contained in nothing. -/
def covering (a : Architecture) (v : String) : List String := a.coverage.above v

def register? (a : Architecture) (name : String) : Option Var :=
  a.registers.find? (·.name = name)

def listing (a : Architecture) : List Var := sort (fun v w => v.name ≤ w.name) a.registers

def registerNames (a : Architecture) : List String := a.registers.map Var.name

def describe (a : Architecture) : String :=
  "Architecture(" ++ a.name ++ ", " ++ toString a.registers.length ++ " registers)"

end Architecture

end Deadwood
