import Deadwood.Elimination.Pass
import Deadwood.Proofs.Contraction
import Deadwood.Proofs.Convergence
import Deadwood.Proofs.Simulation

namespace Deadwood.Pass

/-!
Eliminations whose live sets belong to their graph: every edge can then be judged, and the edges judged
dead are dead by the path property.
-/

variable {p : Pass} {e : Edge Location} {l : Location}

/-- Liveness has been computed for the graph as it is. -/
structure Settled (p : Pass) : Prop where
  native : p.graph.IsNative
  analysis : p.analysis.WellFormed
  machine : p.analysis.architecture = p.program.architecture
  bounded : Solver.Bounded p.analysis p.live
  keys : ∀ l, (p.live.get? l).isSome = true ↔ l ∈ p.graph.nodes
  live_iff : ∀ l ∈ p.graph.nodes, ∀ v, Solver.LiveIn p.analysis p.live l v ↔
    LiveAt p.program.architecture p.graph.edges l v

theorem analyze_converged (native : p.graph.IsNative) (formed : p.analysis.WellFormed) :
    (p.analyze none).outcome.ending = .converged :=
  ((Solver.seed_sound p.graph formed).run_converged native (p.schedule p.iterations)).1

theorem analyze_settled {limit : Option Nat} (native : p.graph.IsNative)
    (formed : p.analysis.WellFormed)
    (machine : p.analysis.architecture = p.program.architecture)
    (ended : (p.analyze limit).outcome.ending = .converged) : (p.analyze limit).pass.Settled := by
  have continues := Solver.iterate_continues native (Solver.seed_sound p.graph formed)
    (p.schedule p.iterations) (Solver.visitBound p.graph (Solver.seed p.graph p.analysis)) 0 limit
  have sound := continues.sound
  have machineAfter := continues.sameMachine.trans machine
  have done := continues.converged ended
  exact ⟨native, sound.analysis, machineAfter, sound.bounded, sound.keys,
    fun l inside v => machineAfter ▸ sound.live_iff_liveAt done inside v⟩

namespace Settled

theorem exists_live (settled : p.Settled) (inside : l ∈ p.graph.nodes) :
    ∃ live, p.live.get? l = some live ∧
      ∀ v, p.analysis.isLive live v = true ↔ LiveAt p.program.architecture p.graph.edges l v := by
  obtain ⟨live, found⟩ := Option.isSome_iff_exists.mp ((settled.keys l).mpr inside)
  refine ⟨live, found, fun v => ?_⟩
  rw [← settled.live_iff l inside v, Solver.LiveIn]
  simp [found]

theorem exists_verdict (settled : p.Settled) (member : e ∈ p.graph.edges) :
    ∃ dead, p.isDead e = .ok dead := by
  obtain ⟨behind, found, _⟩ := settled.exists_live (p.graph.ends_mem e member).2
  unfold isDead Program.isDead
  split <;> simp [found]

theorem isDead (settled : p.Settled) (member : e ∈ p.graph.edges)
    (verdict : p.isDead e = .ok true) :
    e.IsDead p.program.architecture p.threading p.graph.edges := by
  obtain ⟨behind, found, liveIff⟩ := settled.exists_live (p.graph.ends_mem e member).2
  unfold Edge.IsDead
  unfold Pass.isDead at verdict
  cases carried : e.statement with
  | assign lhs rhs =>
      simp only [Program.isDead, carried, found, Except.ok.injEq, Bool.not_eq_true'] at verdict
      intro live
      rw [(liveIff lhs).mpr live] at verdict
      cases verdict
  | skip => trivial
  | assume condition kind =>
      simp only [Program.isDead, carried, Program.isThreadable, Except.ok.injEq,
        Bool.and_eq_true, decide_eq_true_eq] at verdict
      obtain ⟨enabled, ⟨⟨sole, ordinary⟩, _⟩, _⟩ := verdict
      exact ⟨enabled, ordinary, fun f listed leaves =>
        Graph.eq_of_sole member (Nat.le_of_eq sole) listed leaves⟩
  | store | halt | call | foreign => simp [Program.isDead, carried] at verdict

end Settled

end Deadwood.Pass
