import Deadwood.Proofs.Truncation

namespace Deadwood.Pass

/-!
How many rounds a run can take. A round is followed by another one only if it has removed an edge,
and within a round the worklist comes to its end. Main statement: however it is told to stop, a run
over native statements returns, and it has made at most one round more than it has removed edges.
-/

variable {p start : Pass} {i : Interrupts} {limit countdown : Option Nat} {removals : List Removal}

theorem Progress.removed_le (progress : Progress start removals p) : start.removed ≤ p.removed := by
  induction progress with
  | start => exact Nat.le_refl _
  | analyze _ _ ih => exact ih
  | cancel _ ih => exact ih
  | remove _ removed ih =>
      obtain ⟨_, _, _, left⟩ := remove?_eq_some_iff.mp removed
      rw [left]
      dsimp only
      omega

theorem removed_le_round (p : Pass) (limit countdown : Option Nat) :
    p.removed ≤ (p.round limit countdown).pass.removed := by
  obtain ⟨_, progress, _⟩ := p.round_progress limit countdown
  exact progress.removed_le

/-- The edges that make the graph smaller are counted. -/
theorem removed_lt_round {count : Nat} (swept : (p.round limit countdown).ending = .swept count)
    (more : count ≠ 0) : p.removed < (p.round limit countdown).pass.removed := by
  have smaller := size_round_lt swept more
  obtain ⟨_, progress, _⟩ := p.round_progress limit countdown
  have counted := progress.size_add_removed
  omega

/-- Between the two states lies at most one round more than there are edges that went. -/
def Spends (p q : Pass) : Prop :=
  ∃ rounds gone, q.iterations = p.iterations + rounds ∧ q.removed = p.removed + gone ∧
    rounds ≤ gone + 1

theorem spends_round (p : Pass) (limit countdown : Option Nat) :
    p.Spends (p.round limit countdown).pass := by
  have kept := p.removed_le_round limit countdown
  have counted := p.iterations_round limit countdown
  exact ⟨1, _, counted, (Nat.add_sub_cancel' kept).symm, Nat.le_add_left ..⟩

theorem rounds_spends (p : Pass) (i : Interrupts) (number : Nat) :
    p.Spends (p.rounds i number).pass := by
  fun_induction rounds p i number with
  | case1 p i number cancelled => exact ⟨0, 0, rfl, rfl, Nat.zero_le _⟩
  | case2 p i number running r error ending => exact p.spends_round ..
  | case3 p i number running r ending => exact p.spends_round ..
  | case4 p i number running r ending => exact p.spends_round ..
  | case5 p i number running r removals ending more left rest ih =>
      have counted : r.pass.iterations = p.iterations + 1 := p.iterations_round ..
      have gained : p.removed < r.pass.removed := removed_lt_round ending more
      obtain ⟨rounds, gone, iterations, removed, few⟩ := ih
      refine ⟨rounds + 1, r.pass.removed - p.removed + gone, ?_, ?_, by omega⟩
      · exact iterations.trans (by omega)
      · exact removed.trans (by omega)

/-- Every round that a run over native statements begins comes to the end of its worklist. -/
theorem ComesTo.computes {q : Pass} {number : Nat} (comes : p.ComesTo i number q limit countdown)
    (regular : p.Regular) (native : p.graph.IsNative) :
    (q.opening limit).outcome.ending = .converged ∨
      (q.opening limit).outcome.ending = .interrupted := by
  obtain ⟨_, progress⟩ := comes.progress
  have sound := Solver.seed_sound q.graph (progress.regular regular).inOrder.toWellFormed
  exact sound.run_ends (progress.isNative native) _ limit

/-- Runs return after few rounds. Whatever has been run or told to stop before, and whenever the run
is told to stop, the worklist of each of its rounds ends, no error does, and it makes at most one
round more than it removes edges. So the first run of an elimination makes at most one round more
than there are edges. -/
theorem run_returns_in_few_rounds (program : Program) (threading : Bool)
    (schedule : Nat → Schedule Location) {edges : List (Edge Location)}
    (identified : Edge.Identified edges) (native : ∀ e ∈ edges, e.statement.IsNative) :
    let start := { ofEdges program threading edges with schedule }
    (∀ p, Reached start p → ∀ i,
      (p.run i).error = none ∧
      (∀ q limit countdown, p.ComesTo i 1 q limit countdown →
        (q.opening limit).outcome.ending = .converged ∨
          (q.opening limit).outcome.ending = .interrupted) ∧
      ∃ rounds gone, (p.run i).pass.iterations = p.iterations + rounds ∧
        (p.run i).pass.removed = p.removed + gone ∧ rounds ≤ gone + 1) ∧
    ∀ i, (start.run i).pass.iterations ≤ (Edge.arrange edges).length + 1 := by
  intro start
  have able : start.Able := ofEdges_able program threading schedule identified native
  constructor
  · intro p reached i
    obtain ⟨_, progress⟩ := reached.progress
    have regular := progress.regular able.regular
    have nativeNow := progress.isNative able.native
    refine ⟨(rounds_truncate regular nativeNow i 1).1, ?_, p.rounds_spends i 1⟩
    exact fun q limit countdown comes => comes.computes regular nativeNow
  · intro i
    obtain ⟨rounds, gone, iterations, removed, few⟩ := start.rounds_spends i 1
    have size : start.graph.size = (Edge.arrange edges).length :=
      (Graph.edges_ofEdges_perm identified.arrange (Edge.nodup_arrange edges)).length_eq
    obtain ⟨_, progress, _⟩ := start.run_progress i
    have counted : (start.run i).pass.graph.size + (start.run i).pass.removed = start.graph.size :=
      progress.size_add_removed
    have begun : start.iterations = 0 ∧ start.removed = 0 := ⟨rfl, rfl⟩
    change (start.rounds i 1).pass.iterations ≤ _
    change _ + (start.rounds i 1).pass.removed = _ at counted
    omega

/-- An elimination of the chain takes as many rounds as it may. It can be run again. -/
theorem deadChain_few_rounds :
    let start := ofEdges { architecture := .x86 } false deadChain
    Edge.Identified deadChain ∧ (∀ e ∈ deadChain, e.statement.IsNative) ∧
      (start.run {}).pass.iterations = 3 ∧ (start.run {}).pass.removed = 2 ∧
      (start.run {}).error = none ∧ ((start.run {}).pass.run {}).error = none ∧
      (start.run {}).pass.iterations ≤ (Edge.arrange deadChain).length + 1 ∧
      ∃ rounds gone, ((start.run {}).pass.run {}).pass.iterations = 3 + rounds ∧
        ((start.run {}).pass.run {}).pass.removed = 2 + gone ∧ rounds ≤ gone + 1 := by
  intro start
  have identified : Edge.Identified deadChain := by decide +kernel
  have native : ∀ e ∈ deadChain, e.statement.IsNative := by decide +kernel
  have counts : (start.run {}).pass.iterations = 3 ∧ (start.run {}).pass.removed = 2 := by
    decide +kernel
  obtain ⟨each, first⟩ := run_returns_in_few_rounds { architecture := .x86 } false
    (fun _ => .smallest) identified native
  obtain ⟨again, _, rounds, gone, iterations, removed, few⟩ :=
    each (start.run {}).pass (.run .start {}) {}
  rw [counts.1] at iterations
  rw [counts.2] at removed
  exact ⟨identified, native, counts.1, counts.2, (each start .start {}).1, again, first {}, rounds,
    gone, iterations, removed, few⟩

end Deadwood.Pass
