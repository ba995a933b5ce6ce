import Deadwood.Architecture.X86
import Deadwood.Proofs.Removal

namespace Deadwood

/-!
A run of the elimination as a series of removals. Main statement: however many removals a run has
made, the paths of the edges it began with and the paths of those it has left correspond, and they
differ only in edges that were removed.
-/

/-- The event tells of an edge that is no longer there. -/
def Event.isLoss : Event → Bool
  | .merged _ | .removed _ => true
  | _ => false

namespace Pass

variable {p : Pass} {removals : List Removal} {edges : List (Edge Location)}

theorem Removal.filter_events (r : Removal) : r.events.filter Event.isLoss = r.events := by
  apply List.filter_eq_self.mpr
  intro event listed
  rcases List.mem_append.mp listed with merged | last
  · obtain ⟨e, _, rfl⟩ := List.mem_map.mp merged
    rfl
  · rw [List.mem_singleton.mp last]
    rfl

/-- A sweep makes removals, each of one of the edges it was given, and reports them. -/
theorem sweep_progress (p : Pass) (countdown : Option Nat) (es : List (Edge Location)) :
    ∃ removals, Progress p removals (p.sweep countdown es).pass ∧
      (∀ r ∈ removals, ∃ e ∈ es, e.id = r.edge.id) ∧
      (p.sweep countdown es).events.filter Event.isLoss = removals.flatMap Removal.events := by
  induction es generalizing p countdown with
  | nil => exact ⟨[], .start, by simp, rfl⟩
  | cons e es ih =>
      cases removed : p.remove? e.id with
      | none =>
          simp only [sweep, removed]
          obtain ⟨removals, progress, among, reported⟩ := ih p countdown
          refine ⟨removals, progress, fun r listed => ?_, reported⟩
          obtain ⟨d, member, same⟩ := among r listed
          exact ⟨d, List.mem_cons_of_mem _ member, same⟩
      | some r =>
          simp only [sweep, removed]
          obtain ⟨removals, progress, among, reported⟩ :=
            ih (if countdown = some 1 then r.pass.cancel else r.pass) (countdown.map (· - 1))
          have first : Progress p [r] (if countdown = some 1 then r.pass.cancel else r.pass) := by
            have one : Progress p [r] r.pass := Progress.start.remove removed
            split
            · exact one.cancel
            · exact one
          refine ⟨[r] ++ removals, first.trans progress, fun d listed => ?_, ?_⟩
          · rcases List.mem_cons.mp listed with rfl | later
            · exact ⟨e, List.mem_cons_self, (contracted_of_remove? removed).2.1.symm⟩
            · obtain ⟨f, member, same⟩ := among d later
              exact ⟨f, List.mem_cons_of_mem _ member, same⟩
          · have silent : (if countdown = some 1 then [Event.cancelRequested] else []).filter
                Event.isLoss = [] := by split <;> rfl
            rw [List.filter_append, List.filter_append, r.filter_events, silent, reported]
            simp

theorem filter_events_analyze (p : Pass) (limit : Option Nat) :
    (p.analyze limit).events.filter Event.isLoss = [] := by
  simp only [analyze, List.filter_append, Outcome.events]
  split <;> split <;> simp [Event.isLoss]

theorem round_progress (p : Pass) (limit countdown : Option Nat) :
    ∃ removals, Progress p removals (p.round limit countdown).pass ∧
      (p.round limit countdown).events.filter Event.isLoss = removals.flatMap Removal.events := by
  let q := { p with iterations := p.iterations + 1 }.analyze limit
  have analyzed : Progress p [] q.pass := Progress.start.analyze limit
  have quiet : q.events.filter Event.isLoss = [] := filter_events_analyze _ limit
  have swept : ∃ removals, Progress p removals (q.pass.eliminate q.outcome.updates countdown).pass ∧
      (q.pass.eliminate q.outcome.updates countdown).events.filter Event.isLoss =
        removals.flatMap Removal.events := by
    cases judged : q.pass.deadEdges with
    | error =>
        simp only [eliminate, judged]
        exact ⟨[], analyzed, rfl⟩
    | ok dead =>
        simp only [eliminate, judged]
        obtain ⟨removals, progress, _, reported⟩ := q.pass.sweep_progress countdown dead
        refine ⟨[] ++ removals, analyzed.trans progress, ?_⟩
        rw [List.filter_append, reported]
        simp [Event.isLoss]
  unfold round
  dsimp only
  split
  case h_1 | h_2 => exact ⟨[], analyzed, quiet⟩
  all_goals
    split
    · exact ⟨[], analyzed, quiet⟩
    · obtain ⟨removals, progress, reported⟩ := swept
      refine ⟨removals, progress, ?_⟩
      rw [List.filter_append, quiet, List.nil_append]
      exact reported

theorem rounds_progress (p : Pass) (i : Interrupts) (number : Nat) :
    ∃ removals, Progress p removals (p.rounds i number).pass ∧
      (p.rounds i number).events.filter Event.isLoss = removals.flatMap Removal.events := by
  fun_induction rounds p i number with
  | case1 => exact ⟨[], .start, rfl⟩
  | case2 | case3 | case4 => exact round_progress ..
  | case5 p i number _ r removals _ _ left rest ih =>
      obtain ⟨before, first, reported⟩ := p.round_progress (i.limit number) i.afterRemovals
      obtain ⟨after, second, reportedAfter⟩ := ih
      refine ⟨before ++ after, first.trans second, ?_⟩
      rw [List.filter_append, List.flatMap_append, reportedAfter]
      exact congrArg (· ++ _) reported

/-- The state a run ends in is the state after the removals it reports. -/
theorem run_progress (p : Pass) (i : Interrupts) :
    ∃ removals, Progress p removals (p.run i).pass ∧
      (p.run i).events.filter Event.isLoss = removals.flatMap Removal.events := by
  obtain ⟨removals, progress, reported⟩ := p.rounds_progress i 1
  refine ⟨removals, progress, ?_⟩
  cases failure : (p.rounds i 1).error with
  | some => simp [run, failure, reported, Event.isLoss]
  | none => simp [run, failure, reported, Event.isLoss]

/-- How the paths of the edges an elimination began with and of those it has left go over into each
other. Edges that were removed are left out, and a merged edge is replaced by its copy. -/
structure Traced (input : List (Edge Location)) (removals : List Removal) (p : Pass) : Prop where
  fixed : ∀ l ∈ p.graph.nodes, representative removals l = l
  contracted : ∀ e ∈ input, heir removals e = none ↔ IsContracted removals e
  heirs : ∀ e ∈ input, ∀ f, heir removals e = some f →
    f ∈ p.edges ∧ f.source = e.source ∧ f.target = representative removals e.target ∧
      f.statement = e.statement ∧ (f.id = e.id ∨ ∃ r ∈ removals, ∃ m ∈ r.merged, m.id = e.id)
  forth : ∀ l es m, IsPath input l es m →
    IsPath p.edges (representative removals l) (es.filterMap (heir removals))
        (representative removals m) ∧
      (es.filterMap (heir removals)).map Edge.statement =
        (es.filter fun e => (heir removals e).isSome).map Edge.statement
  expands : ∀ f ∈ p.edges, ∃ first rest, IsPath input f.source (first :: rest) f.target ∧
    first.id = f.id ∧ first.statement = f.statement ∧
      ∀ e ∈ rest, ∃ r ∈ removals, r.edge.id = e.id ∧ r.edge.statement = e.statement
  back : ∀ l fs m, IsPath p.edges l fs m →
    ∃ es, IsPath input l es m ∧ es.filterMap (heir removals) = fs

theorem mem_graph_ofEdges (program : Program) (threading : Bool)
    (identified : Edge.Identified edges) {e : Edge Location} :
    e ∈ (ofEdges program threading edges).graph.edges ↔ e ∈ Edge.arrange edges :=
  Graph.mem_edges_ofEdges identified.arrange

theorem ofEdges_listed (program : Program) (threading : Bool)
    (identified : Edge.Identified edges) : (ofEdges program threading edges).Listed := by
  intro id
  show id ∈ (Edge.arrange edges).map Edge.id ↔ _
  simp only [List.mem_map, mem_graph_ofEdges program threading identified]

theorem Progress.traced {start : Pass} {input : List (Edge Location)}
    (progress : Progress start removals p) (listed : start.Listed)
    (same : ∀ e, e ∈ input ↔ e ∈ start.graph.edges) : Traced input removals p := by
  have folding := progress.folding.congr same fun _ => mem_edges (progress.listed listed)
  have statements {l m : Location} {es : List (Edge Location)} (path : IsPath input l es m) :=
    folding.map_statement path
  refine ⟨fun l left => progress.representative_eq_self left, ?_, ?_, ?_, ?_, ?_⟩
  · exact fun e member => progress.heir_eq_none_iff ((same e).mp member)
  · intro e member f found
    obtain ⟨there, source, statement, target, _⟩ := folding.kept e member f found
    refine ⟨there, source, target, statement, ?_⟩
    exact Classical.or_iff_not_imp_left.mpr (progress.merged_of_heir_ne found)
  · exact fun l es m path => ⟨folding.path path, statements path⟩
  · intro f there
    obtain ⟨first, rest, path, sameId, statement, _, gone⟩ := folding.expand_edge there
    refine ⟨first, rest, path, sameId, statement, fun e listed => ?_⟩
    obtain ⟨r, member, removedId⟩ := gone e listed
    obtain ⟨d, inside, sameD, statementD⟩ := progress.exists_of_mem member
    have whole : e ∈ start.graph.edges := (same e).mp (path.mem e (List.mem_cons_of_mem _ listed))
    have itself : d = e := start.graph.eq_of_id_eq inside whole (sameD.trans removedId)
    exact ⟨r, member, removedId, itself ▸ statementD.symm⟩
  · intro l fs m path
    obtain ⟨es, old, images, _⟩ := folding.expand path
    exact ⟨es, old, images⟩

/-- Removals keep control flow, up to the edges removed. This holds at every moment of every run: the
run is a series of removals, each state in between is one that this speaks of, and it does not
matter which edges were chosen or in which order. -/
theorem removals_trace_paths (program : Program) (threading : Bool)
    (schedule : Nat → Schedule Location) {edges : List (Edge Location)}
    (identified : Edge.Identified edges) :
    let start := { ofEdges program threading edges with schedule }
    (∀ i, ∃ removals,
      (start.run i).events.filter Event.isLoss = removals.flatMap Removal.events ∧
        ∀ done later, removals = done ++ later →
          ∃ p, Progress start done p ∧ Progress p later (start.run i).pass) ∧
    ∀ removals p, Progress start removals p → Traced (Edge.arrange edges) removals p := by
  intro start
  constructor
  · intro i
    obtain ⟨removals, progress, reported⟩ := start.run_progress i
    refine ⟨removals, reported, fun done later parts => ?_⟩
    exact Progress.split (parts ▸ progress)
  · intro removals p progress
    have same (e : Edge Location) : e ∈ Edge.arrange edges ↔ e ∈ start.graph.edges :=
      (mem_graph_ofEdges program threading identified).symm
    exact progress.traced (ofEdges_listed program threading identified) same

/-- Two ways to one place that carry the same test, one of them with a detour. -/
def detour : List (Edge Location) :=
  [⟨0, ⟨0x1000, 0⟩, ⟨0x1001, 0⟩, .assume (.var "ecx") .ordinary⟩,
   ⟨1, ⟨0x1000, 0⟩, ⟨0x1002, 0⟩, .assume (.var "ecx") .ordinary⟩,
   ⟨2, ⟨0x1001, 0⟩, ⟨0x1002, 0⟩, .skip⟩]

theorem detour_traced :
    Edge.Identified detour ∧
      ∃ r, (ofEdges { architecture := .x86 } false detour).remove? 2 = some r ∧
        r.merged.map Edge.id = [0] ∧ Traced (Edge.arrange detour) [r] r.pass := by
  have identified : Edge.Identified detour := by decide +kernel
  have reported : ((ofEdges { architecture := .x86 } false detour).remove? 2).map
      (·.merged.map Edge.id) = some [0] := by decide +kernel
  obtain ⟨r, removed, merged⟩ := Option.map_eq_some_iff.mp reported
  refine ⟨identified, r, removed, merged, ?_⟩
  exact (removals_trace_paths { architecture := .x86 } false (fun _ => .smallest) identified).2 [r]
    r.pass (Progress.start.remove removed)

end Pass

end Deadwood
