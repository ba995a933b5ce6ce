import Deadwood.Proofs.Bookkeeping
import Deadwood.Proofs.Course

namespace Deadwood.Pass

/-!
What holds of an elimination at any time. Main statement: when it has been set up, behind every
removal and however a run has ended, the listing has the edges of the graph, no two of them are
copies, each is an edge there was at first with another target at most, every location has an edge
and a live set, and the edges that are gone have been counted.
-/

variable {p start : Pass} {id : Nat} {r : Removal} {removals : List Removal}
  {edges : List (Edge Location)}

/-- What every step of an elimination keeps. -/
structure Regular (p : Pass) : Prop where
  order_nodup : p.order.Nodup
  listed : p.Listed
  distinct : Edge.Distinct p.graph.edges
  joined : p.graph.Joined
  inOrder : p.analysis.InOrder
  machine : p.analysis.architecture = p.program.architecture
  keyed : 0 < p.iterations → LiveGraph.Keyed ⟨p.graph, p.live⟩

theorem ofEdges_regular (program : Program) (threading : Bool) (schedule : Nat → Schedule Location)
    (identified : Edge.Identified edges) :
    Regular { ofEdges program threading edges with schedule } where
  order_nodup := identified.arrange.ids_nodup (Edge.nodup_arrange edges)
  listed := ofEdges_listed program threading identified
  distinct e left f right :=
    Edge.distinct_arrange edges e ((mem_graph_ofEdges program threading identified).mp left) f
      ((mem_graph_ofEdges program threading identified).mp right)
  joined := Graph.joined_ofEdges identified.arrange
  inOrder := Analysis.ofArchitecture_inOrder program.architecture
  machine := rfl
  keyed begun := absurd begun (Nat.lt_irrefl 0)

namespace Regular

theorem ventured (regular : p.Regular) (limit : Option Nat) :
    Solver.Ventured p.graph (Solver.seed p.graph p.analysis) (p.opening limit).outcome :=
  Solver.iterate_ventured regular.inOrder ..

theorem opening (regular : p.Regular) (limit : Option Nat) : (p.opening limit).pass.Regular where
  order_nodup := regular.order_nodup
  listed := regular.listed
  distinct := regular.distinct
  joined := regular.joined
  inOrder := (regular.ventured limit).inOrder
  machine := (regular.ventured limit).grown.architecture_eq.trans regular.machine
  keyed _ := (regular.ventured limit).keys (Solver.seed_keys p.graph p.analysis)

theorem remove (regular : p.Regular) (removed : p.remove? id = some r) : r.pass.Regular := by
  obtain ⟨member, _, sole, _⟩ := contracted_of_remove? removed
  have listed := regular.listed.remove removed
  obtain ⟨_, _, _, left⟩ := remove?_eq_some_iff.mp removed
  rw [left] at listed ⊢
  exact
    { order_nodup := regular.order_nodup.filter _
      listed
      distinct := LiveGraph.distinct_contract regular.distinct
      joined := LiveGraph.joined_contract member sole regular.joined
      inOrder := regular.inOrder
      machine := regular.machine
      keyed := fun begun => (regular.keyed begun).contract member }

theorem order_perm (regular : p.Regular) : p.order.Perm (p.graph.edges.map Edge.id) :=
  (List.perm_ext_iff_of_nodup regular.order_nodup p.graph.ids_nodup).mpr regular.listed

theorem edges_perm (regular : p.Regular) : p.edges.Perm p.graph.edges := by
  have found : (p.order.filterMap p.graph.find?).Nodup := by
    refine regular.order_nodup.filterMap fun left right e first second => ?_
    rw [← (Graph.find?_eq_some_iff.mp first).2, (Graph.find?_eq_some_iff.mp second).2]
  have nodup : p.edges.Nodup := (sort_perm _).nodup_iff.mpr found
  exact (List.perm_ext_iff_of_nodup nodup p.graph.nodup_edges).mpr fun e => mem_edges regular.listed

end Regular

theorem Progress.regular (progress : Progress start removals p) (regular : start.Regular) :
    p.Regular := by
  induction progress with
  | start => exact regular
  | analyze _ limit ih => exact ih.opening limit
  | cancel _ ih => exact { ih with }
  | remove _ removed ih => exact ih.remove removed

/-- Every edge that is gone has been counted. -/
theorem Progress.size_add_removed (progress : Progress start removals p) :
    p.graph.size + p.removed = start.graph.size + start.removed := by
  induction progress with
  | start => rfl
  | analyze _ _ ih => exact ih
  | cancel _ ih => exact ih
  | @remove _ p id r _ removed ih =>
      obtain ⟨member, _⟩ := contracted_of_remove? removed
      obtain ⟨_, _, merged, left⟩ := remove?_eq_some_iff.mp removed
      have size := LiveGraph.size_contract (s := ⟨p.graph, p.live⟩) member
      rw [left, merged]
      dsimp only at size ⊢
      omega

/-- The state of an elimination is consistent in itself and with the edges it began with. -/
structure Consistent (input : List (Edge Location)) (p : Pass) : Prop where
  listed : p.order.Perm (p.graph.edges.map Edge.id)
  indexed : p.edges.Perm p.graph.edges
  outgoing_count : ∀ e ∈ p.edges, ∀ l,
    (p.graph.outgoing l).count e = if e.source = l then 1 else 0
  incoming_count : ∀ e ∈ p.edges, ∀ l,
    (p.graph.incoming l).count e = if e.target = l then 1 else 0
  apart : p.edges.Pairwise fun e f => ¬ (e.source = f.source ∧ e.target = f.target ∧
    e.statement = f.statement)
  original : ∀ f ∈ p.edges, ∃ e ∈ input,
    e.id = f.id ∧ e.source = f.source ∧ e.statement = f.statement
  joined : ∀ l ∈ p.graph.nodes, ∃ e ∈ p.edges, e.source = l ∨ e.target = l
  entered : ∀ l ∈ p.graph.sinks, ∃ e ∈ p.edges, e.target = l
  seeded : 0 < p.iterations → ∀ l, l ∈ p.live.keys ↔ l ∈ p.graph.nodes
  counted : p.edges.length + p.removed = input.length

theorem count_filter_edges (g : Graph Location) {e : Edge Location} (member : e ∈ g.edges)
    (test : Edge Location → Bool) :
    (g.edges.filter test).count e = if test e = true then 1 else 0 := by
  split
  case isTrue passes =>
    exact List.count_eq_one_of_mem (g.nodup_edges.filter _) (List.mem_filter.mpr ⟨member, passes⟩)
  case isFalse fails =>
    exact List.count_eq_zero_of_not_mem fun kept => fails (List.mem_filter.mp kept).2

theorem Progress.consistent {input : List (Edge Location)} (progress : Progress start removals p)
    (regular : start.Regular) (same : start.graph.edges.Perm input) (fresh : start.removed = 0) :
    Consistent input p := by
  have regularNow := progress.regular regular
  have indexed := regularNow.edges_perm
  have inside {e : Edge Location} : e ∈ p.edges ↔ e ∈ p.graph.edges := indexed.mem_iff
  have joined : ∀ l ∈ p.graph.nodes, ∃ e ∈ p.edges, e.source = l ∨ e.target = l := by
    intro l there
    obtain ⟨e, member, ends⟩ := regularNow.joined l there
    exact ⟨e, inside.mpr member, ends⟩
  refine ⟨regularNow.order_perm, indexed, fun e member l => ?_, fun e member l => ?_, ?_, ?_,
    joined, ?_, ?_, ?_⟩
  · exact (count_filter_edges p.graph (inside.mp member) (·.source = l)).trans (by simp)
  · exact (count_filter_edges p.graph (inside.mp member) (·.target = l)).trans (by simp)
  · have nodup : p.edges.Nodup := indexed.nodup_iff.mpr p.graph.nodup_edges
    refine nodup.imp_of_mem fun left right different copy => different ?_
    exact regularNow.distinct _ (inside.mp left) _ (inside.mp right) (Edge.isCopy_iff.mpr copy)
  · intro f listed
    obtain ⟨e, member, sameId, found⟩ := progress.folding.origin f (inside.mp listed)
    obtain ⟨_, source, statement, _⟩ := progress.folding.kept e member f found
    exact ⟨e, same.mem_iff.mp member, sameId, source.symm, statement.symm⟩
  · intro l last
    obtain ⟨there, degree⟩ := List.mem_filter.mp last
    obtain ⟨e, listed, leaves | enters⟩ := joined l there
    · have way : e ∈ p.graph.outgoing l := Graph.mem_outgoing.mpr ⟨inside.mp listed, leaves⟩
      have none := List.length_eq_zero_iff.mp (of_decide_eq_true degree)
      rw [none] at way
      cases way
    · exact ⟨e, listed, enters⟩
  · intro begun l
    rw [OrderedMap.mem_keys]
    exact regularNow.keyed begun l
  · have sizes := progress.size_add_removed
    rw [fresh, Nat.add_zero] at sizes
    rw [indexed.length_eq, ← same.length_eq]
    exact sizes

/-- An elimination is consistent whenever it is looked at: between calls, whatever has been run,
interrupted or stopped by an error before, and in the course of a run behind every removal. -/
theorem reached_consistent (program : Program) (threading : Bool)
    (schedule : Nat → Schedule Location) {edges : List (Edge Location)}
    (identified : Edge.Identified edges) :
    let start := { ofEdges program threading edges with schedule }
    ∀ p, Reached start p → Consistent (Edge.arrange edges) p ∧
      ∀ i m, p.GoesThrough i m → Consistent (Edge.arrange edges) m.removal.pass := by
  intro start p reached
  have regular := ofEdges_regular program threading schedule identified
  have same : start.graph.edges.Perm (Edge.arrange edges) :=
    Graph.edges_ofEdges_perm identified.arrange (Edge.nodup_arrange edges)
  obtain ⟨removals, progress⟩ := reached.progress
  refine ⟨progress.consistent regular same rfl, fun i m passes => ?_⟩
  obtain ⟨made, progressMade⟩ := passes.progress
  exact (progress.trans progressMade).consistent regular same rfl

theorem detour_consistent :
    let start := ofEdges { architecture := .x86 } false detour
    Edge.Identified detour ∧ (start.run {}).pass.removed = 2 ∧
      Consistent (Edge.arrange detour) (start.run {}).pass ∧
      ∃ m, start.GoesThrough {} m ∧ m.removal.edge.id = 2 ∧
        Consistent (Edge.arrange detour) m.removal.pass := by
  intro start
  have identified : Edge.Identified detour := by decide +kernel
  have removed : (start.run {}).pass.removed = 2 := by decide +kernel
  have reported : .removed ⟨2, ⟨0x1001, 0⟩, ⟨0x1002, 0⟩, .skip⟩ ∈ (start.run {}).events := by
    decide +kernel
  have consistent :=
    reached_consistent { architecture := .x86 } false (fun _ => .smallest) identified
  obtain ⟨m, passes, edge⟩ := (removed_mem_run_events ..).mp reported
  refine ⟨identified, removed, (consistent _ (.run .start {})).1, m, passes, by rw [edge], ?_⟩
  exact (consistent start .start).2 {} m passes

end Deadwood.Pass
