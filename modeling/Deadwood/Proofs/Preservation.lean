import Deadwood.Proofs.Rounds
import Deadwood.Proofs.Settlement

namespace Deadwood

/-!
The elimination keeps the meaning of a program. Every round removes only edges that are dead by the
path property, and so each round folds the graph without a change of meaning. Main statement: a run
that is not cancelled ends without an error, and what is left does what the edges it began with do.
-/

universe u v

namespace Pass

variable {program : Program} {threading : Bool} {p q r : Pass}

/-- What every round relies on. -/
structure Ready (program : Program) (threading : Bool) (p : Pass) : Prop where
  program_eq : p.program = program
  threading_eq : p.threading = threading
  running : p.cancelled = false
  native : p.graph.IsNative
  analysis : p.analysis.WellFormed
  machine : p.analysis.architecture = program.architecture
  listed : p.Listed

theorem ofEdges_ready (program : Program) (threading : Bool) (schedule : Nat → Schedule Location)
    {edges : List (Edge Location)} (identified : Edge.Identified edges)
    (native : ∀ e ∈ edges, e.statement.IsNative) :
    Ready program threading { ofEdges program threading edges with schedule } where
  program_eq := rfl
  threading_eq := rfl
  running := rfl
  native _ member :=
    native _ (Edge.mem_of_mem_arrange ((mem_graph_ofEdges program threading identified).mp member))
  analysis := Analysis.ofArchitecture_wellFormed program.architecture
  machine := rfl
  listed := ofEdges_listed program threading identified

/-- Liveness has been computed: every edge can be judged, and those judged dead are dead by the path
property. -/
structure Judged (program : Program) (threading : Bool) (p : Pass) : Prop
    extends Ready program threading p where
  judged : ∀ e ∈ p.graph.edges, ∃ dead, p.isDead e = .ok dead
  dead : ∀ e ∈ p.graph.edges, p.isDead e = .ok true →
    e.IsDead program.architecture threading p.graph.edges

theorem Ready.analyze (ready : Ready program threading p) :
    ({ p with iterations := p.iterations + 1 }.analyze none).outcome.ending = .converged ∧
      Judged program threading ({ p with iterations := p.iterations + 1 }.analyze none).pass := by
  obtain ⟨rfl, rfl, running, native, analysis, machine, listed⟩ := ready
  let q := { p with iterations := p.iterations + 1 }
  have ended : (q.analyze none).outcome.ending = .converged := analyze_converged native analysis
  have settled : (q.analyze none).pass.Settled := analyze_settled native analysis machine ended
  refine ⟨ended, ⟨rfl, rfl, ?_, native, settled.analysis, settled.machine, listed⟩, ?_, ?_⟩
  · simp [Pass.analyze, running]
  · exact fun e member => settled.exists_verdict member
  · exact fun e member verdict => settled.isDead member verdict

theorem sweep_eq (p : Pass) (es : List (Edge Location)) :
    ∃ order graph live removed,
      (p.sweep none es).pass = { p with order, graph, live, removed } := by
  induction es generalizing p with
  | nil => exact ⟨p.order, p.graph, p.live, p.removed, rfl⟩
  | cons e es ih =>
      cases removed : p.remove? e.id with
      | none =>
          simp only [sweep, removed]
          exact ih p
      | some r =>
          obtain ⟨_, _, _, left⟩ := remove?_eq_some_iff.mp removed
          obtain ⟨order, graph, live, count, same⟩ := ih r.pass
          refine ⟨order, graph, live, count, ?_⟩
          simp only [sweep, removed, reduceCtorEq, if_false, Option.map_none]
          rw [same, left]

/-- Part of a run: the removals made in it have led to a state that rounds can start from, and what
is left then does what was there before. -/
structure Keeps (program : Program) (threading : Bool) (p : Pass) (removals : List Removal)
    (q : Pass) : Prop where
  ready : Ready program threading q
  progress : Progress p removals q
  passes : ∀ {Value : Type u} {Memory : Type v}
    (sem : Semantics program.architecture Value Memory),
      sem.PassesForced p.graph.edges → sem.PassesForced q.graph.edges
  preserves : ∀ {Value : Type u} {Memory : Type v}
    (sem : Semantics program.architecture Value Memory),
      Preserves sem threading p.graph.edges q.graph.edges (representative removals)

theorem Keeps.trans {before after : List Removal}
    (first : Keeps.{u, v} program threading p before q)
    (second : Keeps.{u, v} program threading q after r) :
    Keeps.{u, v} program threading p (before ++ after) r where
  ready := second.ready
  progress := first.progress.trans second.progress
  passes sem forced := second.passes sem (first.passes sem forced)
  preserves sem := by
    have both := (first.preserves sem).trans (second.preserves sem) (first.passes sem)
    have maps : (fun l => representative after (representative before l)) =
        representative (before ++ after) := by
      funext l
      simp [representative]
    exact maps ▸ both

theorem Judged.sweep (judged : Judged program threading p) {dead : List (Edge Location)}
    (all : ∀ e ∈ dead, e ∈ p.graph.edges ∧ p.isDead e = .ok true) :
    ∃ removals, Keeps.{u, v} program threading p removals (p.sweep none dead).pass := by
  obtain ⟨removals, progress, among, _⟩ := p.sweep_progress none dead
  obtain ⟨order, graph, live, removed, same⟩ := p.sweep_eq dead
  have folding := progress.folding
  have idle : ∀ e ∈ p.graph.edges, (∃ r ∈ removals, r.edge.id = e.id) →
      e.IsDead program.architecture threading p.graph.edges := by
    rintro e member ⟨r, listed, sameId⟩
    obtain ⟨d, inside, sameD⟩ := among r listed
    obtain ⟨there, verdict⟩ := all d inside
    have itself : d = e := p.graph.eq_of_id_eq there member (sameD.trans sameId)
    exact itself ▸ judged.dead d there verdict
  refine ⟨removals, ?_, progress, fun sem => folding.passesForced,
    fun sem => folding.preserves idle judged.native⟩
  have native : (p.sweep none dead).pass.graph.IsNative := by
    intro f there
    obtain ⟨e, member, _, found⟩ := folding.origin f there
    rw [(folding.kept e member f found).2.2.1]
    exact judged.native e member
  have listed := progress.listed judged.listed
  rw [same] at native listed ⊢
  exact ⟨judged.program_eq, judged.threading_eq, judged.running, native, judged.analysis,
    judged.machine, listed⟩

theorem Ready.round (ready : Ready program threading p) :
    ∃ count removals, (p.round none none).ending = .swept count ∧
      Keeps.{u, v} program threading p removals (p.round none none).pass := by
  obtain ⟨ended, judged⟩ := ready.analyze
  let q := { p with iterations := p.iterations + 1 }.analyze none
  have edgesIff {e : Edge Location} : e ∈ q.pass.edges ↔ e ∈ q.pass.graph.edges :=
    mem_edges judged.listed
  obtain ⟨dead, found⟩ := exists_deadAmong (p := q.pass)
    fun e (listed : e ∈ q.pass.edges) => judged.judged e (edgesIff.mp listed)
  have all : ∀ e ∈ dead, e ∈ q.pass.graph.edges ∧ q.pass.isDead e = .ok true := by
    intro e among
    obtain ⟨listed, verdict⟩ := (mem_deadAmong found).mp among
    exact ⟨edgesIff.mp listed, verdict⟩
  obtain ⟨removals, kept⟩ := Judged.sweep.{u, v} judged all
  have swept : (p.round none none).pass = (q.pass.sweep none dead).pass ∧
      (p.round none none).ending = .swept (q.pass.sweep none dead).removals := by
    have running : q.pass.cancelled = false := judged.running
    have judgedAll : q.pass.deadEdges = .ok dead := found
    have converged : q.outcome.ending = .converged := ended
    simp [Pass.round, q, converged, running, eliminate, judgedAll]
  refine ⟨_, removals, swept.2, ?_⟩
  rw [swept.1]
  exact ⟨kept.ready, (Progress.start.analyze none).trans kept.progress, kept.passes, kept.preserves⟩

/-- Rounds that nothing interrupts end without an error, and none of them changes the meaning. -/
theorem Ready.rounds (ready : Ready program threading p) {i : Interrupts} (quiet : i = {})
    (number : Nat) :
    (p.rounds i number).error = none ∧
      ∃ removals, Keeps.{u, v} program threading p removals (p.rounds i number).pass := by
  fun_induction Pass.rounds p i number with
  | case1 p i number cancelled =>
      rw [ready.running] at cancelled
      cases cancelled
  | case2 p i number running r error ending =>
      subst quiet
      obtain ⟨count, removals, swept, kept⟩ := Ready.round.{u, v} ready
      cases ending.symm.trans swept
  | case3 p i number running r ending =>
      subst quiet
      obtain ⟨count, removals, swept, kept⟩ := Ready.round.{u, v} ready
      cases ending.symm.trans swept
  | case4 p i number running r ending =>
      subst quiet
      obtain ⟨count, removals, swept, kept⟩ := Ready.round.{u, v} ready
      exact ⟨rfl, removals, kept⟩
  | case5 p i number running r removals ending more left rest ih =>
      subst quiet
      obtain ⟨count, before, swept, kept⟩ := Ready.round.{u, v} ready
      obtain ⟨fine, after, keptAfter⟩ := ih kept.ready rfl
      exact ⟨fine, before ++ after, kept.trans keptAfter⟩

/-- The elimination keeps the meaning of a program, whatever its statements mean and in whatever order
liveness is computed. Unless it is cancelled a run ends without an error, and there is a
representative for every location, the location itself if it is left or was an exit, such that what
is left does from the representative what was done from the location. -/
theorem run_preserves_meaning (program : Program) (threading : Bool)
    (schedule : Nat → Schedule Location) {edges : List (Edge Location)}
    (identified : Edge.Identified edges) (native : ∀ e ∈ edges, e.statement.IsNative) :
    let result := { ofEdges program threading edges with schedule }.run {}
    result.error = none ∧ ∃ rep : Location → Location,
      (∀ l ∈ result.pass.graph.nodes, rep l = l) ∧ (∀ l, IsExit edges l → rep l = l) ∧
        ∀ (Value : Type u) (Memory : Type v) (sem : Semantics program.architecture Value Memory),
          Preserves sem threading edges result.pass.edges rep := by
  intro result
  let start := { ofEdges program threading edges with schedule }
  have ready := ofEdges_ready program threading schedule identified native
  obtain ⟨fine, removals, kept⟩ := Ready.rounds.{u, v} ready rfl 1
  have same {e : Edge Location} : e ∈ start.graph.edges ↔ e ∈ Edge.arrange edges :=
    mem_graph_ofEdges program threading identified
  have listed {e : Edge Location} : e ∈ result.pass.edges ↔ e ∈ result.pass.graph.edges :=
    mem_edges kept.ready.listed
  have there : HaveCopies edges start.graph.edges := fun e member => by
    obtain ⟨f, inside, copy⟩ := Edge.haveCopies_arrange edges e member
    exact ⟨f, same.mpr inside, copy⟩
  have back : HaveCopies start.graph.edges edges :=
    Edge.haveCopies_of_subset fun e member => Edge.mem_of_mem_arrange (same.mp member)
  have preserves (Value : Type u) (Memory : Type v)
      (sem : Semantics program.architecture Value Memory) :
      Preserves sem threading edges result.pass.edges (representative removals) :=
    (kept.preserves sem).of_copies there back (Edge.haveCopies_of_subset fun _ => listed.mp)
      (Edge.haveCopies_of_subset fun _ => listed.mpr)
  refine ⟨fine, representative removals, ?_, ?_, preserves⟩
  · exact fun l left => kept.progress.representative_eq_self left
  · intro l last
    exact (kept.progress.folding.isExit ((there.isExit_iff back).mp last)).1

end Pass

namespace Semantics

/-- The value of an expression over integers, where memory cells have integers as addresses and every
operator adds. -/
def evalSum (σ : State Int (Int → Int)) : Expr → Int
  | .var name => σ.value name
  | .const value _ => value
  | .mem address _ => σ.memory (evalSum σ address)
  | .unary _ operand => evalSum σ operand
  | .binary _ left right => evalSum σ left + evalSum σ right
  | .foreign _ => 0

theorem reads_append {first second : Except Unsupported (List String)} {names : List String}
    (found : (do return (← first) ++ (← second)) = Except.ok names) :
    ∃ left right, first = .ok left ∧ second = .ok right ∧ names = left ++ right := by
  cases first with
  | error => cases found
  | ok left =>
      cases second with
      | error => cases found
      | ok right =>
          cases found
          exact ⟨left, right, rfl, rfl, rfl⟩

theorem evalSum_congr {σ τ : State Int (Int → Int)} {e : Expr} {names : List String}
    (found : e.reads = .ok names) (agree : σ.Agree (· ∈ names) τ) :
    evalSum σ e = evalSum τ e := by
  induction e generalizing names with
  | var name =>
      cases found
      exact agree.2 name (by simp)
  | const | foreign => rfl
  | mem address _ ih => rw [evalSum, evalSum, ih found agree, agree.1]
  | unary _ operand ih => exact ih found agree
  | binary _ left right ihLeft ihRight =>
      obtain ⟨first, second, foundLeft, foundRight, rfl⟩ := reads_append found
      rw [evalSum, evalSum, ihLeft foundLeft (agree.mono fun _ => List.mem_append_left _),
        ihRight foundRight (agree.mono fun _ => List.mem_append_right _)]

/-- A store changes one cell, all parts of a register hold its value, and an unknown procedure clears
what it clobbers. -/
def integers (a : Architecture) : Semantics a Int (Int → Int) where
  eval e σ := evalSum σ e
  eval_congr _ _ _ _ found agree := evalSum_congr found agree
  part _ value _ := value
  stored target value σ := fun address =>
    if address = evalSum σ target then evalSum σ value else σ.memory address
  stored_congr _ _ _ _ _ found agree := by
    obtain ⟨first, second, foundTarget, foundValue, rfl⟩ := reads_append found
    funext address
    rw [evalSum_congr foundTarget (agree.mono fun _ => List.mem_append_left _),
      evalSum_congr foundValue (agree.mono fun _ => List.mem_append_right _), agree.1]
  holds value := value ≠ 0
  returned _ σ := { value := fun _ => 0, memory := σ.memory }
  returned_congr _ _ _ agree := by rw [agree.1]

end Semantics

namespace Pass

/-- A value that is overwritten before anything reads it, and a jump that always passes. -/
def overwritten : List (Edge Location) :=
  [⟨0, ⟨0x1000, 0⟩, ⟨0x1001, 0⟩, .assign "eax" (.const 5 32)⟩,
   ⟨1, ⟨0x1001, 0⟩, ⟨0x1002, 0⟩, .assign "eax" (.var "ebx")⟩,
   ⟨2, ⟨0x1002, 0⟩, ⟨0x1003, 0⟩, .assume Statement.always .ordinary⟩]

theorem overwritten_preserved :
    Edge.Identified overwritten ∧ (∀ e ∈ overwritten, e.statement.IsNative) ∧
      let result := (ofEdges { architecture := .x86 } true overwritten).run {}
      result.error = none ∧ ∃ rep : Location → Location, ∀ σ,
        (∃ υ, Runs (Semantics.integers .x86) result.pass.edges (rep ⟨0x1000, 0⟩) σ ⟨0x1003, 0⟩ υ ∧
          υ.value "eax" = σ.value "ebx") ∧
        ∀ υ, Runs (Semantics.integers .x86) result.pass.edges (rep ⟨0x1000, 0⟩) σ ⟨0x1003, 0⟩ υ →
          ∃ τ, Runs (Semantics.integers .x86) overwritten ⟨0x1000, 0⟩ σ ⟨0x1003, 0⟩ τ ∧
            τ.value "eax" = υ.value "eax" := by
  have identified : Edge.Identified overwritten := by decide +kernel
  have native : ∀ e ∈ overwritten, e.statement.IsNative := by decide +kernel
  obtain ⟨fine, rep, _, exits, preserves⟩ :=
    run_preserves_meaning { architecture := .x86 } true (fun _ => .smallest) identified native
  have kept := preserves Int (Int → Int) (Semantics.integers .x86)
  have last : IsExit overwritten ⟨0x1003, 0⟩ := by
    unfold IsExit
    decide +kernel
  have register : "eax" ∈ Architecture.x86.registerNames := by decide +kernel
  refine ⟨identified, native, fine, rep, fun σ => ⟨?_, fun υ run => ?_⟩⟩
  · have apart : ¬ ("ebx" = "eax" ∨ "ebx" ∈ Architecture.x86.covered "eax") := by decide +kernel
    have run : ∃ τ, Runs (Semantics.integers .x86) overwritten ⟨0x1000, 0⟩ σ ⟨0x1003, 0⟩ τ ∧
        τ.value "eax" = σ.value "ebx" := by
      refine ⟨_, .step (e := overwritten[0]) (by simp [overwritten]) rfl
        (.step (e := overwritten[1]) (by simp [overwritten]) rfl
          (.step (e := overwritten[2]) (by simp [overwritten]) rfl (.stay _ _))), ?_⟩
      exact if_neg apart
    obtain ⟨τ, taken, value⟩ := run
    obtain ⟨υ, follows, seen⟩ := kept.forth _ _ σ σ τ (.refl _ σ) taken
    rw [exits _ last] at follows
    exact ⟨υ, follows, (seen.2 "eax" ⟨last, register⟩).symm.trans value⟩
  · have passes : (Semantics.integers .x86).PassesForced overwritten := by
      intro e member condition carried _ σ
      have always : condition = Statement.always := by
        simp only [overwritten, List.mem_cons, List.not_mem_nil, or_false] at member
        rcases member with rfl | rfl | rfl <;> cases carried
        rfl
      rw [always]
      rfl
    obtain ⟨τ, taken, seen⟩ := kept.back (fun _ => passes) _ _ σ σ υ (.refl _ σ) run
    exact ⟨τ, taken, seen.2 "eax" ⟨last, register⟩⟩

end Pass

end Deadwood
