import Deadwood.Proofs.Recomputation
import Deadwood.Proofs.Truncation

namespace Deadwood

/-!
Objects that do not belong to the language. Main statement: liveness fails exactly if some statement
is such an object or reads an operand that one stands in; nothing else makes it fail, and in particular
no live set is ever missing. An elimination fails for the same reason only, and leaves its edges, its
graph and its count of removals as they were.
-/

namespace Expr

/-- One expression stands somewhere in another, or is the whole of it. -/
inductive Within (x : Expr) : Expr → Prop
  | whole : Within x x
  | address {address : Expr} {width : Int} (inside : Within x address) :
      Within x (.mem address width)
  | operand {op : String} {operand : Expr} (inside : Within x operand) :
      Within x (.unary op operand)
  | left {op : String} {left right : Expr} (inside : Within x left) :
      Within x (.binary op left right)
  | right {op : String} {left right : Expr} (inside : Within x right) :
      Within x (.binary op left right)

theorem exists_within_foreign_iff {e : Expr} :
    (∃ name, Within (.foreign name) e) ↔ ¬ e.IsNative := by
  constructor
  · rintro ⟨name, inside⟩
    induction inside with
    | whole => exact id
    | address _ ih | operand _ ih => exact ih
    | left _ ih => exact fun native => ih native.1
    | right _ ih => exact fun native => ih native.2
  · intro foreign
    induction e with
    | var | const => exact absurd trivial foreign
    | mem address width ih => exact (ih foreign).imp fun _ => .address
    | unary op operand ih => exact (ih foreign).imp fun _ => .operand
    | binary op left right ihLeft ihRight =>
        by_cases native : left.IsNative
        · have other : ¬ right.IsNative := fun also => foreign ⟨native, also⟩
          exact (ihRight other).imp fun _ => .right
        · exact (ihLeft native).imp fun _ => .left
    | foreign name => exact ⟨name, .whole⟩

end Expr

namespace Statement

/-- The expressions whose variables a statement reads. -/
inductive Operand : Statement → Expr → Prop
  | assigned (lhs : String) (rhs : Expr) : Operand (.assign lhs rhs) rhs
  | target (target value : Expr) : Operand (.store target value) target
  | value (target value : Expr) : Operand (.store target value) value
  | condition (condition : Expr) (kind : BranchKind) : Operand (.assume condition kind) condition

/-- The statement is foreign itself, or something foreign stands in an operand. -/
def IsForeign (s : Statement) : Prop :=
  (∃ name, s = .foreign name) ∨ ∃ e, s.Operand e ∧ ∃ name, Expr.Within (.foreign name) e

theorem isForeign_iff {s : Statement} : s.IsForeign ↔ ¬ s.IsNative := by
  simp only [IsForeign, Expr.exists_within_foreign_iff]
  constructor
  · rintro (⟨name, rfl⟩ | ⟨e, operand, foreign⟩)
    · exact id
    · cases operand with
      | assigned | condition => exact foreign
      | target => exact fun native => foreign native.1
      | value => exact fun native => foreign native.2
  · intro foreign
    cases s with
    | assign lhs rhs => exact .inr ⟨rhs, .assigned lhs rhs, foreign⟩
    | assume condition kind => exact .inr ⟨condition, .condition condition kind, foreign⟩
    | store target value =>
        by_cases native : target.IsNative
        · have other : ¬ value.IsNative := fun also => foreign ⟨native, also⟩
          exact .inr ⟨value, .value target value, other⟩
        · exact .inr ⟨target, .target target value, native⟩
    | skip | halt | call => exact absurd trivial foreign
    | foreign name => exact .inl ⟨name, rfl⟩

end Statement

/-- The failure is that one of the edges has a foreign statement. -/
structure Failure.BlamesForeign {ν : Type} (failure : Failure ν) (edges : List (Edge ν)) : Prop where
  listed : failure.edge ∈ edges
  foreign : failure.edge.statement.IsForeign
  unsupported : ∃ cause, failure.cause = .unsupported cause

theorem Graph.not_isNative_iff {ν : Type} {g : Graph ν} :
    ¬ g.IsNative ↔ ∃ e ∈ g.edges, e.statement.IsForeign := by
  simp only [IsNative, Statement.isForeign_iff, not_forall, exists_prop]

theorem Edge.Identified.not_isNative_iff {ν : Type} [DecidableEq ν] [Node ν]
    {edges : List (Edge ν)} (identified : Edge.Identified edges) :
    ¬ (Graph.ofEdges (Edge.arrange edges)).IsNative ↔ ∃ e ∈ edges, e.statement.IsForeign := by
  rw [Graph.not_isNative_iff]
  constructor
  · rintro ⟨e, member, foreign⟩
    have listed := (Graph.mem_edges_ofEdges identified.arrange).mp member
    exact ⟨e, Edge.mem_of_mem_arrange listed, foreign⟩
  · rintro ⟨e, member, foreign⟩
    obtain ⟨f, listed, copy⟩ := Edge.haveCopies_arrange edges e member
    have same := (Edge.isCopy_iff.mp copy).2.2
    exact ⟨f, (Graph.mem_edges_ofEdges identified.arrange).mpr listed, same ▸ foreign⟩

namespace Solver

variable {ν : Type} [DecidableEq ν] [Node ν] {g : Graph ν} {a : Analysis} {s t : Solver ν} {n : ν}

/-- A visit cannot fail for want of a live set, since every target has one. -/
theorem Formed.blamesForeign (formed : Formed g s) (inOrder : s.analysis.InOrder)
    {failure : Failure ν} (stepped : s.step g n = (.error failure, t)) :
    failure.BlamesForeign g.edges := by
  obtain ⟨_, _, e, member, blames⟩ := step_failed inOrder stepped
  obtain ⟨listed, _⟩ := Graph.mem_outgoing.mp member
  rcases blames.reason with ⟨missing, _⟩ | ⟨foreign, unsupported⟩
  · have known := (formed.keys e.target).mpr (g.ends_mem e listed).2
    simp [missing] at known
  · rw [← blames.edge_eq] at listed foreign
    exact ⟨listed, Statement.isForeign_iff.mpr foreign, unsupported⟩

/-- A visit that succeeds shows that the edges out of its node are native, and the effort asks for no
more. -/
theorem Sound.step_of_ok (sound : Sound g s) (inOrder : s.analysis.InOrder)
    (pending : n ∈ s.pending) {update : Option (Update ν)}
    (stepped : s.step g n = (.ok update, t)) :
    Sound g t ∧ t.analysis.InOrder ∧ t.effort g < s.effort g := by
  have attempted := step_attempted (g := g) inOrder n
  rw [stepped] at attempted
  obtain ⟨after, _, less⟩ := sound.step (attempted.native update rfl) pending stepped
  exact ⟨after, attempted.inOrder, less⟩

/-- What a series of visits can come to over any statements, if it was started from a seed. -/
structure Concludes (g : Graph ν) (s : Solver ν) (visits : Nat) (o : Outcome ν) : Prop where
  failed : ∀ failure, o.ending = .failed failure → failure.BlamesForeign g.edges
  unfinished : o.ending = .unfinished → visits < s.effort g

theorem iterate_concludes (sound : Sound g s) (inOrder : s.analysis.InOrder)
    (schedule : Schedule ν) (visits number : Nat) (limit : Option Nat) :
    Concludes g s visits (iterate g schedule visits number limit s) := by
  fun_induction iterate g schedule visits number limit s with
  | case1 | case2 => exact ⟨by simp, by simp⟩
  | case3 number limit s n picked below =>
      have occupied : 0 < s.pending.size := List.length_pos_of_mem (schedule.pick_mem picked)
      exact ⟨by simp, fun _ => Nat.lt_add_right _ occupied⟩
  | case4 number limit s n picked below visits failure t failed =>
      refine ⟨fun other same => ?_, by simp⟩
      cases same
      exact sound.toFormed.blamesForeign inOrder failed
  | case5 number limit s n picked below visits t stepped ih =>
      obtain ⟨after, ordered, less⟩ := sound.step_of_ok inOrder (schedule.pick_mem picked) stepped
      have rest := ih after ordered
      exact ⟨rest.failed, fun cut => Nat.lt_of_le_of_lt (rest.unfinished cut) less⟩
  | case6 number limit s n picked below visits update t stepped rest ih =>
      obtain ⟨after, ordered, less⟩ := sound.step_of_ok inOrder (schedule.pick_mem picked) stepped
      have rest := ih after ordered
      exact ⟨rest.failed, fun cut => Nat.lt_of_le_of_lt (rest.unfinished cut) less⟩

/-- A run from a seed converges over native statements only, and fails over others only. -/
theorem seed_run_cases (inOrder : a.InOrder) (g : Graph ν) (schedule : Schedule ν)
    (limit : Option Nat) :
    let outcome := (seed g a).run g schedule limit
    outcome.ending = .converged ∧ g.IsNative ∨
      outcome.ending = .interrupted ∧ limit ≠ none ∨
      ∃ failure, outcome.ending = .failed failure ∧ failure.BlamesForeign g.edges := by
  intro outcome
  have sound := seed_sound g inOrder.toWellFormed
  have concludes : Concludes g (seed g a) (visitBound g (seed g a)) outcome :=
    iterate_concludes sound inOrder schedule _ 0 limit
  have ventured : Ventured g (seed g a) outcome := iterate_ventured inOrder schedule _ 0 limit
  cases ended : outcome.ending with
  | converged => exact .inl ⟨rfl, ventured.isNative_of_converged ended⟩
  | interrupted =>
      have reached : limit = some outcome.updates := limit_of_interrupted ended
      exact .inr (.inl ⟨rfl, by simp [reached]⟩)
  | failed failure => exact .inr (.inr ⟨failure, rfl, concludes.failed failure ended⟩)
  | unfinished =>
      have bound := effort_le_visitBound g (seed g a)
      have short := concludes.unfinished ended
      omega

end Solver

namespace Pass

variable {p start : Pass}

/-- The edges, the graph and the count of removals are the same. -/
structure Unchanged (p q : Pass) : Prop where
  edges_eq : q.edges = p.edges
  graph_eq : q.graph = p.graph
  removed_eq : q.removed = p.removed

/-- Over a foreign statement, a round gets no further than its opening. -/
theorem round_of_foreign (regular : p.Regular) (foreign : ¬ p.graph.IsNative)
    (limit countdown : Option Nat) :
    p.Unchanged (p.round limit countdown).pass ∧
      ((p.round limit countdown).ending = .stopped ∧ limit ≠ none ∨
        ∃ failure, (p.round limit countdown).ending = .failed (.analysis failure) ∧
          failure.BlamesForeign p.graph.edges) := by
  have ends : (p.opening limit).outcome.ending = .converged ∧ p.graph.IsNative ∨
      (p.opening limit).outcome.ending = .interrupted ∧ limit ≠ none ∨
      ∃ failure, (p.opening limit).outcome.ending = .failed failure ∧
        failure.BlamesForeign p.graph.edges :=
    Solver.seed_run_cases regular.inOrder p.graph _ limit
  rcases ends with ⟨_, native⟩ | ⟨ended, limited⟩ | ⟨failure, ended, blames⟩
  · exact absurd native foreign
  · have requested := cancelled_of_interrupted p limit ended
    unfold opening at ended requested
    simp only [round, ended, requested, if_true]
    exact ⟨⟨rfl, rfl, rfl⟩, .inl ⟨trivial, limited⟩⟩
  · unfold opening at ended
    simp only [round, ended]
    exact ⟨⟨rfl, rfl, rfl⟩, .inr ⟨failure, rfl, blames⟩⟩

theorem rounds_of_foreign (regular : p.Regular) (foreign : ¬ p.graph.IsNative) (i : Interrupts)
    (number : Nat) :
    p.Unchanged (p.rounds i number).pass ∧
      ((p.rounds i number).error = none ∧ (p.cancelled = true ∨ i.limit number ≠ none) ∨
        ∃ failure, (p.rounds i number).error = some (.analysis failure) ∧
          failure.BlamesForeign p.graph.edges) := by
  obtain ⟨unchanged, reason⟩ :=
    round_of_foreign regular foreign (i.limit number) i.afterRemovals
  fun_cases rounds p i number with
  | case1 cancelled => exact ⟨⟨rfl, rfl, rfl⟩, .inl ⟨rfl, .inl cancelled⟩⟩
  | case2 running r error ended =>
      rcases reason with ⟨stopped, _⟩ | ⟨failure, failed, blames⟩
      · cases ended.symm.trans stopped
      · cases ended.symm.trans failed
        exact ⟨unchanged, .inr ⟨failure, rfl, blames⟩⟩
  | case3 running r ended =>
      rcases reason with ⟨_, limited⟩ | ⟨failure, failed, _⟩
      · exact ⟨unchanged, .inl ⟨rfl, .inr limited⟩⟩
      · cases ended.symm.trans failed
  | case4 running r ended | case5 running r removals ended =>
      rcases reason with ⟨stopped, _⟩ | ⟨failure, failed, _⟩
      · cases ended.symm.trans stopped
      · cases ended.symm.trans failed

/-- Nothing is removed as long as there is a foreign statement, and so it stays. -/
theorem Reached.graph_eq_of_foreign (reached : Reached start p) (regular : start.Regular)
    (foreign : ¬ start.graph.IsNative) : p.graph = start.graph := by
  induction reached with
  | start => rfl
  | @run p before i ih =>
      obtain ⟨_, progress⟩ := before.progress
      have still : ¬ p.graph.IsNative := ih ▸ foreign
      exact (rounds_of_foreign (progress.regular regular) still i 1).1.graph_eq.trans ih
  | interrupt _ ih => exact ih

theorem Reached.isNative_iff (reached : Reached start p) (regular : start.Regular) :
    p.graph.IsNative ↔ start.graph.IsNative := by
  obtain ⟨_, progress⟩ := reached.progress
  refine ⟨fun native => ?_, progress.isNative⟩
  exact Classical.byContradiction fun foreign =>
    foreign (reached.graph_eq_of_foreign regular foreign ▸ native)

/-- Over any statements an elimination fails, if it does, at a foreign one and with nothing changed;
and left alone it does if there is one. -/
theorem Regular.run_fails (regular : p.Regular) (i : Interrupts) :
    (p.cancelled = false → ((∃ error, (p.run {}).error = some error) ↔ ¬ p.graph.IsNative)) ∧
    ∀ error, (p.run i).error = some error →
      (∃ failure, error = .analysis failure ∧ failure.BlamesForeign p.edges) ∧
        p.Unchanged (p.run i).pass := by
  by_cases native : p.graph.IsNative
  · have fine (j : Interrupts) : (p.run j).error = none := (rounds_truncate regular native j 1).1
    simp [fine, native]
  · refine ⟨fun running => iff_of_true ?_ native, fun error failed => ?_⟩
    · obtain ⟨_, ⟨_, requested⟩ | ⟨failure, failed, _⟩⟩ := rounds_of_foreign regular native {} 1
      · simp [running, Interrupts.limit] at requested
      · exact ⟨_, failed⟩
    · obtain ⟨unchanged, ⟨fine, _⟩ | ⟨failure, same, blames⟩⟩ :=
        rounds_of_foreign regular native i 1
      · cases fine.symm.trans failed
      · cases same.symm.trans failed
        have listed := regular.edges_perm.mem_iff.mpr blames.listed
        exact ⟨⟨failure, rfl, listed, blames.foreign, blames.unsupported⟩, unchanged⟩

/-- Liveness fails exactly if a statement is foreign or something foreign stands in one of its
operands, whatever is visited first; it fails at such a statement, and else it converges. So does an
elimination that is not told to stop, whatever has been run before; and one that fails, also if told
to stop, leaves its edges, its graph and its count of removals as they were. -/
theorem fails_iff_foreign (program : Program) (threading : Bool)
    (schedules : Nat → Schedule Location) {edges : List (Edge Location)}
    (identified : Edge.Identified edges) :
    (∀ schedule : Schedule Location,
      let g := Graph.ofEdges (Edge.arrange edges)
      let outcome := (Solver.seed g (.ofArchitecture program.architecture)).run g schedule none
      (outcome.ending = .converged ∨ ∃ failure, outcome.ending = .failed failure) ∧
      ((∃ failure, outcome.ending = .failed failure) ↔ ∃ e ∈ edges, e.statement.IsForeign) ∧
      ∀ failure, outcome.ending = .failed failure → failure.BlamesForeign edges) ∧
    ∀ p, Reached { ofEdges program threading edges with schedule := schedules } p →
      (p.cancelled = false →
        ((∃ error, (p.run {}).error = some error) ↔ ∃ e ∈ edges, e.statement.IsForeign)) ∧
      ∀ i error, (p.run i).error = some error →
        (∃ failure, error = .analysis failure ∧ failure.BlamesForeign p.edges) ∧
        (p.run i).pass.edges = p.edges ∧ (p.run i).pass.graph = p.graph ∧
        (p.run i).pass.removed = p.removed := by
  have foreignIff := identified.not_isNative_iff
  constructor
  · intro schedule g outcome
    have inOrder := Analysis.ofArchitecture_inOrder program.architecture
    have ends : outcome.ending = .converged ∧ g.IsNative ∨
        outcome.ending = .interrupted ∧ none ≠ none ∨
        ∃ failure, outcome.ending = .failed failure ∧ failure.BlamesForeign g.edges :=
      Solver.seed_run_cases inOrder g schedule none
    rcases ends with ⟨ended, native⟩ | ⟨_, limited⟩ | ⟨failure, ended, blames⟩
    · have none : ¬ ∃ e ∈ edges, e.statement.IsForeign := fun foreign =>
        foreignIff.mpr foreign native
      simp [ended, none]
    · exact absurd rfl limited
    · have foreign := foreignIff.mp (Graph.not_isNative_iff.mpr ⟨_, blames.listed, blames.foreign⟩)
      refine ⟨.inr ⟨failure, ended⟩, iff_of_true ⟨failure, ended⟩ foreign, fun other same => ?_⟩
      cases ended.symm.trans same
      have listed := (Graph.mem_edges_ofEdges identified.arrange).mp blames.listed
      exact ⟨Edge.mem_of_mem_arrange listed, blames.foreign, blames.unsupported⟩
  · intro p reached
    have begun := ofEdges_regular program threading schedules identified
    obtain ⟨_, progress⟩ := reached.progress
    have regular := progress.regular begun
    have foreignNow : ¬ p.graph.IsNative ↔ ∃ e ∈ edges, e.statement.IsForeign :=
      (not_congr (reached.isNative_iff begun)).trans foreignIff
    refine ⟨fun running => ((regular.run_fails {}).1 running).trans foreignNow, ?_⟩
    intro i error failed
    obtain ⟨blames, unchanged⟩ := (regular.run_fails i).2 error failed
    exact ⟨blames, unchanged.edges_eq, unchanged.graph_eq, unchanged.removed_eq⟩

/-- A dead assignment before one with a foreign operand. -/
def spoiled : List (Edge Location) :=
  [⟨0, ⟨0x1000, 0⟩, ⟨0x1001, 0⟩, .assign "tmp" (.const 1 32)⟩,
   ⟨1, ⟨0x1001, 0⟩, ⟨0x1002, 0⟩, .store (.mem (.unary "-" (.foreign "phi")) 32) (.var "eax")⟩]

theorem spoiled_fails :
    let p := ofEdges { architecture := .x86 } false spoiled
    Edge.Identified spoiled ∧ p.cancelled = false ∧
      (∃ failure, (liveness .x86 spoiled).ending = .failed failure) ∧
      ∃ error, (p.run {}).error = some error ∧ (p.run {}).pass.edges = p.edges ∧
        (p.run {}).pass.removed = 0 := by
  intro p
  have identified : Edge.Identified spoiled := by decide +kernel
  have foreign : ∃ e ∈ spoiled, e.statement.IsForeign :=
    ⟨spoiled[1], List.mem_cons_of_mem _ List.mem_cons_self,
      .inr ⟨_, .target _ _, "phi", .address (.operand .whole)⟩⟩
  obtain ⟨analysis, elimination⟩ :=
    fails_iff_foreign { architecture := .x86 } false (fun _ => .smallest) identified
  obtain ⟨failsIff, unchanged⟩ := elimination p .start
  obtain ⟨error, failed⟩ := (failsIff rfl).mpr foreign
  obtain ⟨_, edges, _, removed⟩ := unchanged {} error failed
  exact ⟨identified, rfl, (analysis .smallest).2.1.mpr foreign, error, failed, edges, removed⟩

end Pass

end Deadwood
