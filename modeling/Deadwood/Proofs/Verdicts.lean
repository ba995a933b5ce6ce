import Deadwood.Proofs.Consistency
import Deadwood.Proofs.Settlement

namespace Deadwood.Pass

/-!
Verdicts on assignments while the graph changes under them. The live sets of a round are not computed
again between its removals. Main statement: they need not be, since whatever a removal redirects goes
on to a location where no more is live than where it went before; so an assignment that was judged
dead is still dead at the moment of its removal, whatever was removed or merged before it.
-/

variable {p q : Pass} {i : Interrupts} {m : Moment} {limit countdown : Option Nat}
  {dead es : List (Edge Location)} {e : Edge Location} {l : Location} {r : Removal}
  {earlier : List Removal} {v : String}

/-- A round that judges has computed liveness. Whatever else the analysis may be given, the statements
are native then. -/
theorem Judges.settled (judges : p.Judges limit dead) (regular : p.Regular) :
    (p.opening limit).pass.Settled := by
  have native : p.graph.IsNative := (regular.ventured limit).isNative_of_converged judges.computed
  exact analyze_settled native regular.inOrder.toWellFormed regular.machine judges.computed

/-- Liveness was not computed between two states: the analysis is the same, and the locations that are
left have the live sets they had. -/
structure Retains (p q : Pass) : Prop where
  analysis_eq : q.analysis = p.analysis
  nodes : ∀ l ∈ q.graph.nodes, l ∈ p.graph.nodes
  live_eq : ∀ l ∈ q.graph.nodes, q.live.get? l = p.live.get? l

theorem Retains.refl (p : Pass) : Retains p p := ⟨rfl, fun _ there => there, fun _ _ => rfl⟩

theorem Retains.trans {s : Pass} (first : Retains p q) (second : Retains q s) : Retains p s where
  analysis_eq := second.analysis_eq.trans first.analysis_eq
  nodes l there := first.nodes l (second.nodes l there)
  live_eq l there := (second.live_eq l there).trans (first.live_eq l (second.nodes l there))

theorem retains_of_remove? (removed : p.remove? e.id = some r) : Retains p r.pass := by
  obtain ⟨_, _, _, contracted⟩ := contracted_of_remove? removed
  have stays : ∀ l ∈ r.pass.graph.nodes, l ∈ p.graph.nodes := fun l there =>
    (contracted.nodes l there).1
  obtain ⟨_, _, _, left⟩ := remove?_eq_some_iff.mp removed
  rw [left] at stays ⊢
  exact ⟨rfl, stays, fun l there => LiveGraph.get?_contract_of_mem (s := ⟨p.graph, p.live⟩) there⟩

theorem Removal.retains_after (r : Removal) (countdown : Option Nat) :
    Retains r.pass (r.after countdown) := by
  unfold Removal.after
  split
  · exact ⟨rfl, fun _ there => there, fun _ _ => rfl⟩
  · exact .refl r.pass

theorem Makes.retains (made : Makes p countdown es earlier q r) : Retains p q := by
  induction made with
  | now => exact .refl _
  | past _ _ ih => exact ih
  | behind removed _ ih =>
      exact ((retains_of_remove? removed).trans (Removal.retains_after _ _)).trans ih

namespace GoesThrough

theorem retains (passes : p.GoesThrough i m) : Retains m.judged m.state := by
  obtain ⟨_, _, _, _, _, _, _, made⟩ := passes
  exact made.retains

theorem settled (passes : p.GoesThrough i m) (regular : p.Regular) : m.judged.Settled := by
  obtain ⟨q, limit, _, _, comes, judges, judged, _⟩ := passes
  obtain ⟨_, progress⟩ := comes.progress
  exact judged ▸ judges.settled (progress.regular regular)

/-- The edges removed up to a moment were dead by the path property when they were judged. -/
theorem isDead (passes : p.GoesThrough i m) (regular : p.Regular) {d : Removal}
    (made : d ∈ m.earlier ++ [m.removal]) (member : e ∈ m.judged.graph.edges)
    (same : d.edge.id = e.id) :
    e.IsDead m.judged.program.architecture m.judged.threading m.judged.graph.edges := by
  have settled := passes.settled regular
  obtain ⟨_, _, _, _, _, judges, judged, course⟩ := passes
  obtain ⟨f, among, sameF⟩ := course.among d made
  obtain ⟨listed, verdict⟩ := (mem_deadAmong (judged ▸ judges.verdicts)).mp among
  have inside := mem_graph_of_mem_edges listed
  have itself : f = e := m.judged.graph.eq_of_id_eq inside member (sameF.trans same)
  exact itself ▸ settled.isDead inside verdict

/-- What is live where a removed edge leads by then was live where it led when it was judged. -/
theorem liveAt_target (passes : p.GoesThrough i m) (regular : p.Regular) (rests : m.RestsOn e)
    (live : LiveAt m.judged.program.architecture m.judged.graph.edges m.removal.edge.target v) :
    LiveAt m.judged.program.architecture m.judged.graph.edges e.target v := by
  have dead : ∀ f ∈ m.judged.graph.edges, (∃ d ∈ m.earlier, d.edge.id = f.id) →
      f.IsDead m.judged.program.architecture m.judged.threading m.judged.graph.edges := by
    rintro f member ⟨d, early, same⟩
    exact passes.isDead regular (List.mem_append_left _ early) member same
  rw [rests.target_eq] at live
  exact passes.sweep_progress.folding.liveAt_of_rep dead live

theorem liveAt_source (passes : p.GoesThrough i m) (regular : p.Regular)
    (live : LiveAt m.judged.program.architecture m.judged.graph.edges m.removal.edge.target v) :
    LiveAt m.judged.program.architecture m.judged.graph.edges m.removal.edge.source v := by
  obtain ⟨e, rests⟩ := passes.restsOn
  have behind := passes.liveAt_target regular rests live
  have dead := passes.isDead regular (List.mem_append_right _ List.mem_cons_self) rests.listed
    rests.id_eq
  rw [rests.source_eq]
  -- A dead edge kills nothing that is live behind it, parts of its variable included.
  exact .along rests.listed (dead.not_kills behind) behind

theorem exists_live (passes : p.GoesThrough i m) (regular : p.Regular)
    (inside : l ∈ m.state.graph.nodes) :
    ∃ live, m.state.live.get? l = some live ∧ m.state.analysis.table.Bounds live ∧
      ∀ v, m.state.analysis.isLive live v = true ↔
        LiveAt m.judged.program.architecture m.judged.graph.edges l v := by
  have settled := passes.settled regular
  have retains := passes.retains
  obtain ⟨live, found, liveIff⟩ := settled.exists_live (retains.nodes l inside)
  refine ⟨live, (retains.live_eq l inside).trans found, ?_⟩
  rw [retains.analysis_eq]
  exact ⟨settled.bounded l live found, liveIff⟩

end GoesThrough

/-- The edges that a removal sends on to its target. -/
def Moment.redirected (m : Moment) : List (Edge Location) :=
  (m.state.graph.erase m.removal.edge.id).incoming m.removal.edge.source

/-- The live sets of a round serve for all of its removals. Whatever a removal redirects goes from a
location that has a live set to one that has a smaller one or the same, and an assignment that is
removed assigns to a variable of which no part is live where the assignment leads by then. -/
theorem removals_keep_verdicts (program : Program) (threading : Bool)
    (schedule : Nat → Schedule Location) {edges : List (Edge Location)}
    (identified : Edge.Identified edges) :
    let start := { ofEdges program threading edges with schedule }
    ∀ p, Reached start p → ∀ i m, p.GoesThrough i m →
      (∀ e ∈ m.redirected, ∃ before behind, m.state.live.get? e.target = some before ∧
        m.state.live.get? m.removal.edge.target = some behind ∧
          behind.isSubset before = true) ∧
      (∀ l ∈ m.state.graph.nodes, m.state.live.get? l = m.judged.live.get? l) ∧
      ∀ x rhs, m.removal.edge.statement = .assign x rhs →
        ∃ behind, m.state.live.get? m.removal.edge.target = some behind ∧
          ∀ y, y = x ∨ program.architecture.coverage.Covers x y →
            m.state.analysis.isLive behind y = false := by
  intro start p reached i m passes
  obtain ⟨_, progress⟩ := reached.progress
  have regular := progress.regular (ofEdges_regular program threading schedule identified)
  obtain ⟨_, further⟩ := passes.judged_progress
  have sameProgram : m.judged.program = program := (progress.trans further).settings.1
  obtain ⟨member, _⟩ := contracted_of_remove? passes.remove?
  obtain ⟨inSource, inTarget⟩ := m.state.graph.ends_mem _ member
  obtain ⟨before, foundBefore, _, beforeIff⟩ := passes.exists_live regular inSource
  obtain ⟨behind, foundBehind, bounded, behindIff⟩ := passes.exists_live regular inTarget
  refine ⟨fun e moved => ?_, passes.retains.live_eq, fun x rhs assigns => ?_⟩
  · rw [(Graph.mem_incoming.mp moved).2]
    refine ⟨before, behind, foundBefore, foundBehind, VarSet.isSubset_iff.mpr ?_⟩
    refine Universe.mem_of_holds bounded fun v live => ?_
    exact (beforeIff v).mpr (passes.liveAt_source regular ((behindIff v).mp live))
  · refine ⟨behind, foundBehind, fun y covered => ?_⟩
    rw [← Bool.not_eq_true, behindIff y]
    intro live
    obtain ⟨e, rests⟩ := passes.restsOn
    have dead := passes.isDead regular (List.mem_append_right _ List.mem_cons_self) rests.listed
      rests.id_eq
    have there := passes.liveAt_target regular rests live
    unfold Edge.IsDead at dead
    rw [← rests.statement_eq, assigns] at dead
    rcases covered with rfl | covers
    · exact dead there
    · exact dead (there.covering (sameProgram ▸ covers))

/-- A dead assignment that leads to a skip, which is removed first. -/
def deadThenSkip : List (Edge Location) :=
  [⟨0, ⟨0x1000, 0⟩, ⟨0x1003, 0⟩, .skip⟩,
   ⟨1, ⟨0x1001, 0⟩, ⟨0x1000, 0⟩, .assign "eax" (.const 1 32)⟩,
   ⟨2, ⟨0x1003, 0⟩, ⟨0x1004, 0⟩, .assign "eax" (.var "ebx")⟩,
   ⟨3, ⟨0x1005, 0⟩, ⟨0x1001, 0⟩, .assume (.var "ecx") .ordinary⟩]

theorem deadThenSkip_keeps_verdict :
    Edge.Identified deadThenSkip ∧
      ∃ m, (ofEdges { architecture := .x86 } false deadThenSkip).GoesThrough {} m ∧
        m.removal.edge = ⟨1, ⟨0x1001, 0⟩, ⟨0x1003, 0⟩, .assign "eax" (.const 1 32)⟩ ∧
        ∃ behind, m.state.live.get? ⟨0x1003, 0⟩ = some behind ∧
          m.state.analysis.isLive behind "eax" = false ∧
          m.state.analysis.isLive behind "al" = false := by
  have identified : Edge.Identified deadThenSkip := by decide +kernel
  have reported : .removed ⟨1, ⟨0x1001, 0⟩, ⟨0x1003, 0⟩, .assign "eax" (.const 1 32)⟩ ∈
      ((ofEdges { architecture := .x86 } false deadThenSkip).run {}).events := by decide +kernel
  have covers : Architecture.x86.coverage.Covers "eax" "al" :=
    Coverage.mem_below.mp (by decide +kernel)
  obtain ⟨m, passes, removed⟩ := (removed_mem_run_events ..).mp reported
  have kept := removals_keep_verdicts { architecture := .x86 } false (fun _ => .smallest) identified
    _ .start {} m passes
  obtain ⟨behind, found, absent⟩ := kept.2.2 "eax" (.const 1 32) (by rw [removed])
  rw [removed] at found
  exact ⟨identified, m, passes, removed, behind, found, absent "eax" (.inl rfl),
    absent "al" (.inr covers)⟩

end Deadwood.Pass
