import Deadwood.Architecture.X86
import Deadwood.Elimination.Verdict
import Deadwood.Proofs.Convergence

namespace Deadwood

/-!
When an assignment is dead, in terms of what may happen to the variable behind it. Main statement: it
is dead exactly if no use of the variable or of a part of it is reached, and no exit if it is a
register. A use of a register that contains the variable does not count, which leaves narrow writes
before wide reads unprotected.
-/

variable {ν : Type} {edges : List (Edge ν)} {n : ν} {x y : String}

namespace Architecture

variable {a : Architecture} {s : Statement}

/-- The variable is an operand of the statement, or a register before an unknown procedure. -/
def Uses (a : Architecture) (s : Statement) (v : String) : Prop :=
  s.Reads v ∨ (∃ clobbered, s = .call clobbered) ∧ v ∈ a.registerNames

theorem gens_iff_uses : a.Gens s x ↔ ∃ y, (x = y ∨ a.coverage.Covers x y) ∧ a.Uses s y := by
  constructor
  · intro given
    rcases given with ⟨y, read, overlap⟩ | ⟨call, register⟩
    · exact ⟨y, overlap, .inl read⟩
    · exact ⟨x, .inl rfl, .inr ⟨call, register⟩⟩
  · intro given
    obtain ⟨y, overlap, read | ⟨call, register⟩⟩ := given
    · exact .inl ⟨y, read, overlap⟩
    · rcases overlap with rfl | covers
      · exact .inr ⟨call, register⟩
      · exact .inr ⟨call, (mem_registerNames_of_covers covers).1⟩

end Architecture

/-- Some path leads from the node to a use of `y`, and nothing on it defines `x` or a register that
contains `x`. -/
def ReachesUse (a : Architecture) (edges : List (Edge ν)) (n : ν) (x y : String) : Prop :=
  ∃ es m, IsPath edges n es m ∧ (∀ e ∈ es, ¬ a.Kills e.statement x) ∧
    ∃ e ∈ edges, e.source = m ∧ a.Uses e.statement y

/-- Some path leads from the node to an exit, and nothing on it defines `x` or a register that
contains `x`. -/
def ReachesExit (a : Architecture) (edges : List (Edge ν)) (n : ν) (x : String) : Prop :=
  ∃ es m, IsPath edges n es m ∧ (∀ e ∈ es, ¬ a.Kills e.statement x) ∧ IsExit edges m

theorem liveAt_iff_reaches {a : Architecture} :
    LiveAt a edges n x ↔
      (∃ y, (x = y ∨ a.coverage.Covers x y) ∧ ReachesUse a edges n x y) ∨
        x ∈ a.registerNames ∧ ReachesExit a edges n x := by
  constructor
  · intro given
    obtain ⟨es, m, path, kept, ⟨last, register⟩ | ⟨e, member, leaves, gens⟩⟩ := given
    · exact .inr ⟨register, es, m, path, kept, last⟩
    · obtain ⟨y, overlap, uses⟩ := Architecture.gens_iff_uses.mp gens
      exact .inl ⟨y, overlap, es, m, path, kept, e, member, leaves, uses⟩
  · intro given
    rcases given with ⟨y, overlap, es, m, path, kept, e, member, leaves, uses⟩ |
      ⟨register, es, m, path, kept, last⟩
    · refine ⟨es, m, path, kept, .inr ⟨e, member, leaves, ?_⟩⟩
      exact Architecture.gens_iff_uses.mpr ⟨y, overlap, uses⟩
    · exact ⟨es, m, path, kept, .inl ⟨last, register⟩⟩

namespace Program

variable {p : Program} {threading : Bool} {g : Graph Location} {s : Solver Location}
  {e : Edge Location} {rhs : Expr}

theorem isDead_assign (assigns : e.statement = .assign x rhs)
    (known : (s.live.get? e.target).isSome = true) :
    p.isDead threading g s.analysis s.live e = .ok true ↔ ¬ s.Live e.target x := by
  obtain ⟨behind, found⟩ := Option.isSome_iff_exists.mp known
  simp [isDead, assigns, found, Solver.Live, Solver.LiveIn]

theorem isDead_assign_iff_not_liveAt {edges : List (Edge Location)}
    (computed : Solver.IsLiveness p.architecture edges s) (member : e ∈ edges)
    (assigns : e.statement = .assign x rhs) :
    p.isDead threading g s.analysis s.live e = .ok true ↔
      ¬ LiveAt p.architecture edges e.target x := by
  have known : (s.live.get? e.target).isSome = true :=
    OrderedMap.mem_keys.mp ((computed.keys e.target).mpr ⟨e, member, .inr rfl⟩)
  obtain ⟨behind, found⟩ := Option.isSome_iff_exists.mp known
  have named : s.names e.target = some (s.analysis.names behind) := by
    simp only [Solver.names, found, Option.map_some]
  rw [isDead_assign assigns known, ← Solver.mem_names_iff named, computed.names _ _ named]

/-- An assignment is dead exactly if neither a use of its variable or of a part of it is reached
before a new definition nor, for a register, an exit. So a use of any overlapping register is out of
reach exactly if no use of a register that contains the variable is reached. -/
theorem isDead_assign_iff_unreached (p : Program) (threading : Bool) (g : Graph Location)
    {edges : List (Edge Location)} (identified : Edge.Identified edges)
    (native : ∀ e ∈ edges, e.statement.IsNative) {e : Edge Location} (member : e ∈ edges)
    {x : String} {rhs : Expr} (assigns : e.statement = .assign x rhs) :
    let solver := (liveness p.architecture edges).solver
    let covers := p.architecture.coverage.Covers
    let reached := ReachesUse p.architecture edges e.target x
    (p.isDead threading g solver.analysis solver.live e = .ok true ↔
      (∀ y, x = y ∨ covers x y → ¬ reached y) ∧
        (x ∈ p.architecture.registerNames → ¬ ReachesExit p.architecture edges e.target x)) ∧
    (p.isDead threading g solver.analysis solver.live e = .ok true →
      ((∀ y, x = y ∨ covers x y ∨ covers y x → ¬ reached y) ↔
        ∀ wide, covers wide x → ¬ reached wide)) := by
  intro solver covers reached
  have computed : Solver.IsLiveness p.architecture edges solver :=
    Solver.isLiveness_liveness p.architecture identified native
  have verdict : p.isDead threading g solver.analysis solver.live e = .ok true ↔
      (∀ y, x = y ∨ covers x y → ¬ reached y) ∧
        (x ∈ p.architecture.registerNames →
          ¬ ReachesExit p.architecture edges e.target x) := by
    rw [isDead_assign_iff_not_liveAt computed member assigns, liveAt_iff_reaches, not_or]
    refine and_congr ?_ not_and
    exact ⟨fun none y overlap use => none ⟨y, overlap, use⟩,
      fun none ⟨y, overlap, use⟩ => none y overlap use⟩
  refine ⟨verdict, fun dead => ⟨fun none wide covers => none wide (.inr (.inr covers)), ?_⟩⟩
  intro none y overlap
  rcases overlap with same | part | whole
  · exact (verdict.mp dead).1 y (.inl same)
  · exact (verdict.mp dead).1 y (.inr part)
  · exact none y whole

def narrowWrite : Edge Location := ⟨0, ⟨0x1000, 0⟩, ⟨0x1001, 0⟩, .assign "al" (.const 1 8)⟩

/-- The write, a read of the whole register, and only then a new value for the whole register. -/
def narrowThenWide : List (Edge Location) :=
  [narrowWrite,
   ⟨1, ⟨0x1001, 0⟩, ⟨0x1002, 0⟩, .assign "ebx" (.var "eax")⟩,
   ⟨2, ⟨0x1002, 0⟩, ⟨0x1003, 0⟩, .assign "eax" (.const 0 32)⟩]

theorem narrowThenWide_spares_parts :
    Edge.Identified narrowThenWide ∧ (∀ e ∈ narrowThenWide, e.statement.IsNative) ∧
      narrowWrite ∈ narrowThenWide ∧ narrowWrite.statement = .assign "al" (.const 1 8) ∧
      ∀ y, "al" = y ∨ Architecture.x86.coverage.Covers "al" y →
        ¬ ReachesUse .x86 narrowThenWide narrowWrite.target "al" y := by
  have identified : Edge.Identified narrowThenWide := by decide +kernel
  have native : ∀ e ∈ narrowThenWide, e.statement.IsNative := by decide +kernel
  have member : narrowWrite ∈ narrowThenWide := List.mem_cons_self
  refine ⟨identified, native, member, rfl, ?_⟩
  have verdict := (isDead_assign_iff_unreached { architecture := .x86 } false
    (.ofEdges narrowThenWide) identified native member rfl).1
  exact (verdict.mp (by decide +kernel)).1

/-- The write counts as dead, although the register that contains its variable is read right
behind it. -/
theorem narrowWrite_isDead_before_wide_read :
    let solver := (liveness .x86 narrowThenWide).solver
    Program.isDead { architecture := .x86 } false (.ofEdges narrowThenWide) solver.analysis
        solver.live narrowWrite = .ok true ∧
      Architecture.x86.coverage.Covers "eax" "al" ∧
      ReachesUse .x86 narrowThenWide narrowWrite.target "al" "eax" := by
  refine ⟨by decide +kernel, ?_, ?_⟩
  · exact Coverage.mem_below.mp (by decide +kernel)
  · refine ⟨[], ⟨0x1001, 0⟩, rfl, by simp, ⟨1, ⟨0x1001, 0⟩, ⟨0x1002, 0⟩, .assign "ebx" (.var "eax")⟩,
      ?_, rfl, .inl ⟨["eax"], rfl, by simp⟩⟩
    exact List.mem_cons_of_mem _ List.mem_cons_self

end Program

end Deadwood
