import Deadwood.Proofs.Path

namespace Deadwood

/-!
What statements do to a state, for any meaning of expressions, stores and unknown procedures. A
statement leaves alone what it does not kill, and what it does depends only on memory and on what it
makes live.
-/

universe u v

/-- A value for every variable, and a memory. -/
structure State (Value : Type u) (Memory : Type v) where
  value : String → Value
  memory : Memory

namespace State

variable {Value : Type u} {Memory : Type v} {P Q : String → Prop} {σ τ υ : State Value Memory}

/-- The states have the same memory, and the same values for the variables in question. -/
def Agree (P : String → Prop) (σ τ : State Value Memory) : Prop :=
  σ.memory = τ.memory ∧ ∀ v, P v → σ.value v = τ.value v

theorem Agree.refl (P : String → Prop) (σ : State Value Memory) : Agree P σ σ :=
  ⟨rfl, fun _ _ => rfl⟩

theorem Agree.symm (agree : Agree P σ τ) : Agree P τ σ :=
  ⟨agree.1.symm, fun v chosen => (agree.2 v chosen).symm⟩

theorem Agree.trans (first : Agree P σ τ) (second : Agree P τ υ) : Agree P σ υ :=
  ⟨first.1.trans second.1, fun v chosen => (first.2 v chosen).trans (second.2 v chosen)⟩

theorem Agree.mono (agree : Agree P σ τ) (fewer : ∀ v, Q v → P v) : Agree Q σ τ :=
  ⟨agree.1, fun v chosen => agree.2 v (fewer v chosen)⟩

end State

/-- A meaning of expressions and of the statements built from them. The value of an expression and
the memory after a store depend only on memory and on the variables read, and an unknown procedure
sees memory and the registers. -/
structure Semantics (a : Architecture) (Value : Type u) (Memory : Type v) where
  eval : Expr → State Value Memory → Value
  eval_congr : ∀ e names σ τ, e.reads = .ok names → σ.Agree (· ∈ names) τ → eval e σ = eval e τ
  /-- What a variable, or a part of it, holds when a value is assigned. -/
  part : String → Value → String → Value
  stored : Expr → Expr → State Value Memory → Memory
  stored_congr : ∀ target value names σ τ, (Statement.store target value).reads = .ok names →
    σ.Agree (· ∈ names) τ → stored target value σ = stored target value τ
  holds : Value → Bool
  /-- What an unknown procedure makes of memory and of the variables it clobbers. -/
  returned : NameSet → State Value Memory → State Value Memory
  returned_congr : ∀ clobbered σ τ, σ.Agree (· ∈ a.registerNames) τ →
    returned clobbered σ = returned clobbered τ

namespace Semantics

variable {a : Architecture} {Value : Type u} {Memory : Type v} (sem : Semantics a Value Memory)
  {s : Statement} {x : String} {σ τ after : State Value Memory}

/-- Executes a statement. An assumption that does not hold lets nothing pass. -/
def exec : Statement → State Value Memory → Option (State Value Memory)
  | .assign lhs rhs, σ =>
      some { σ with
        value := fun x =>
          if x = lhs ∨ x ∈ a.covered lhs then sem.part lhs (sem.eval rhs σ) x else σ.value x }
  | .store target value, σ => some { σ with memory := sem.stored target value σ }
  | .assume condition _, σ => if sem.holds (sem.eval condition σ) then some σ else none
  | .skip, σ | .halt, σ => some σ
  | .call clobbered, σ =>
      let after := sem.returned clobbered σ
      some { after with
        value := fun x =>
          if ∃ d ∈ clobbered.toList, x = d ∨ x ∈ a.covered d then after.value x else σ.value x }
  | .foreign _, _ => none

variable {sem}

theorem exec_frame (done : sem.exec s σ = some τ) (kept : ¬ a.Kills s x) :
    τ.value x = σ.value x := by
  cases s with
  | assign lhs rhs =>
      cases done
      exact if_neg (mt Architecture.kills_assign.mpr kept)
  | call clobbered =>
      cases done
      exact if_neg (mt Architecture.kills_call.mpr kept)
  | assume condition =>
      simp only [exec] at done
      split at done
      · cases done
        rfl
      · cases done
  | store | skip | halt =>
      cases done
      rfl
  | foreign => cases done

/-- A statement does the same in states that agree on what it makes live: the same memory results,
and the same values for what it kills. -/
theorem exec_congr (native : s.IsNative) (agree : σ.Agree (a.Gens s) τ)
    (done : sem.exec s σ = some after) :
    ∃ other, sem.exec s τ = some other ∧ after.memory = other.memory ∧
      ∀ x, a.Kills s x ∨ σ.value x = τ.value x → after.value x = other.value x := by
  obtain ⟨names, found⟩ := Statement.reads_isOk_iff.mpr native
  have read : σ.Agree (· ∈ names) τ := agree.mono fun x listed => .of_reads found listed
  cases s with
  | assign lhs rhs =>
      cases done
      refine ⟨_, rfl, agree.1, fun x reason => ?_⟩
      dsimp only
      rw [sem.eval_congr rhs names σ τ found read]
      split
      · rfl
      case isFalse kept => exact reason.resolve_left (mt Architecture.kills_assign.mp kept)
  | store target value =>
      cases done
      refine ⟨_, rfl, sem.stored_congr target value names σ τ found read, fun x reason => ?_⟩
      exact reason.resolve_left (Architecture.not_kills_of_defines rfl)
  | assume condition kind =>
      simp only [exec, sem.eval_congr condition names σ τ found read] at done ⊢
      split at done
      case isFalse => cases done
      case isTrue passes =>
        cases done
        refine ⟨τ, if_pos passes, agree.1, fun x reason => ?_⟩
        exact reason.resolve_left (Architecture.not_kills_of_defines rfl)
  | skip | halt =>
      cases done
      refine ⟨τ, rfl, agree.1, fun x reason => ?_⟩
      exact reason.resolve_left (Architecture.not_kills_of_defines rfl)
  | call clobbered =>
      have same : sem.returned clobbered σ = sem.returned clobbered τ :=
        sem.returned_congr clobbered σ τ (agree.mono fun x register => .inr ⟨⟨_, rfl⟩, register⟩)
      cases done
      refine ⟨_, rfl, by rw [same], fun x reason => ?_⟩
      dsimp only
      rw [same]
      split
      · rfl
      case isFalse kept => exact reason.resolve_left (mt Architecture.kills_call.mp kept)
  | foreign => cases done

end Semantics

/-- The edges lead from one node to another, and the statements on the way from one state to the
other. -/
inductive Runs {a : Architecture} {Value : Type u} {Memory : Type v} {ν : Type}
    (sem : Semantics a Value Memory) (edges : List (Edge ν)) :
    ν → State Value Memory → ν → State Value Memory → Prop
  | stay (l : ν) (σ : State Value Memory) : Runs sem edges l σ l σ
  | step {e : Edge ν} {m : ν} {σ τ υ : State Value Memory} (member : e ∈ edges)
      (done : sem.exec e.statement σ = some τ) (rest : Runs sem edges e.target τ m υ) :
      Runs sem edges e.source σ m υ

namespace Runs

variable {a : Architecture} {Value : Type u} {Memory : Type v} {sem : Semantics a Value Memory}
  {ν : Type} {edges others : List (Edge ν)} {l m n : ν} {σ τ υ : State Value Memory}

theorem trans (first : Runs sem edges l σ m τ) (second : Runs sem edges m τ n υ) :
    Runs sem edges l σ n υ := by
  induction first with
  | stay => exact second
  | step member done _ ih => exact .step member done (ih second)

theorem copies [DecidableEq ν] (run : Runs sem edges l σ m τ) (copies : HaveCopies edges others) :
    Runs sem others l σ m τ := by
  induction run with
  | stay l σ => exact .stay l σ
  | step member done _ ih =>
      obtain ⟨f, listed, copy⟩ := copies _ member
      obtain ⟨source, target, statement⟩ := Edge.isCopy_iff.mp copy
      rw [source]
      exact .step listed (statement ▸ done) (target ▸ ih)

end Runs

end Deadwood
