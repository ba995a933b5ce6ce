import Deadwood.Proofs.Verdicts

namespace Deadwood.Pass

/-!
Where a run ends that nobody stops. Main statement: it ends in a normal form. The live sets are the
liveness of the edges that are left, an edge among them that is dead is one of several ways out of its
source, and so another run has nothing to do, be it of the same elimination or of a new one over the
edges that are left.
-/

variable {p q : Pass} {i : Interrupts} {number : Nat} {limit countdown : Option Nat}
  {dead es : List (Edge Location)} {e : Edge Location}

/-- Liveness has been computed, and no edge that is dead can be removed. -/
structure Normal (p : Pass) : Prop extends Settled p where
  regular : p.Regular
  stuck : ∀ e ∈ p.graph.edges, p.isDead e = .ok true → 2 ≤ p.graph.outDegree e.source

theorem remove?_eq_none_iff {id : Nat} (found : p.find? id = some e) :
    p.remove? id = none ↔ 2 ≤ p.graph.outDegree e.source := by
  by_cases branching : p.graph.outDegree e.source > 1
  · simp only [remove?, found, branching, if_true, true_iff]
    omega
  · simp only [remove?, found, branching, if_false, reduceCtorEq, false_iff]
    omega

theorem exists_removal {id : Nat} (found : p.find? id = some e)
    (sole : p.graph.outDegree e.source ≤ 1) : ∃ r, p.remove? id = some r ∧ r.edge = e := by
  cases removed : p.remove? id with
  | none =>
      have := (remove?_eq_none_iff found).mp removed
      omega
  | some r =>
      have again := (remove?_eq_some_iff.mp removed).1
      exact ⟨r, rfl, Option.some.inj (again.symm.trans found)⟩

theorem Listed.find?_eq_some (listed : p.Listed) (member : e ∈ p.graph.edges) :
    p.find? e.id = some e :=
  find?_eq_some_iff.mpr ⟨(listed e.id).mpr (List.mem_map_of_mem member), member, rfl⟩

/-- A sweep that removes nothing has tried every edge in the state it began with. -/
theorem sweep_of_removals_eq_zero (idle : (p.sweep countdown es).removals = 0) :
    (p.sweep countdown es).pass = p ∧ ∀ e ∈ es, p.remove? e.id = none := by
  induction es with
  | nil => exact ⟨rfl, by simp⟩
  | cons e es ih =>
      cases removed : p.remove? e.id with
      | none =>
          simp only [sweep, removed] at idle ⊢
          obtain ⟨same, rest⟩ := ih idle
          exact ⟨same, List.forall_mem_cons.mpr ⟨removed, rest⟩⟩
      | some r => simp [sweep, removed] at idle

theorem sweep_of_stuck (stuck : ∀ e ∈ es, p.remove? e.id = none) (countdown : Option Nat) :
    p.sweep countdown es = { pass := p, events := [], removals := 0 } := by
  induction es with
  | nil => rfl
  | cons e es ih =>
      obtain ⟨first, rest⟩ := List.forall_mem_cons.mp stuck
      simp only [sweep, first, ih rest]

theorem cancelled_of_stopped (stopped : (p.round limit countdown).ending = .stopped) :
    (p.round limit countdown).pass.cancelled = true := by
  rcases p.round_cases limit countdown with ⟨dead, judges⟩ | ⟨ending, idles, same⟩
  · rw [judges.round_eq countdown] at stopped
    cases stopped
  · rw [same] at stopped ⊢
    cases idles with
    | failed => cases stopped
    | stopped requested => exact requested

/-- Rounds that end without an error and uncancelled end with one that removes nothing. -/
theorem exists_last_round (fine : (p.rounds i number).error = none)
    (running : (p.rounds i number).pass.cancelled = false) :
    ∃ q limit countdown, p.ComesTo i number q limit countdown ∧
      (q.round limit countdown).ending = .swept 0 ∧
        (p.rounds i number).pass = (q.round limit countdown).pass := by
  fun_induction rounds p i number with
  | case1 p i number cancelled => cases cancelled.symm.trans running
  | case2 => cases fine
  | case3 p i number _ r ending => cases (cancelled_of_stopped ending).symm.trans running
  | case4 p i number uncancelled r ending =>
      exact ⟨p, _, _, .now (by simpa using uncancelled), ending, rfl⟩
  | case5 p i number uncancelled r removals ending more left rest ih =>
      obtain ⟨q, limit, countdown, comes, swept, same⟩ := ih fine running
      exact ⟨q, limit, countdown, .later (by simpa using uncancelled) ending more comes, swept, same⟩

theorem normal_of_swept (regular : p.Regular)
    (swept : (p.round limit countdown).ending = .swept 0) :
    (p.round limit countdown).pass.Normal := by
  obtain ⟨dead, judges⟩ := exists_judges_of_swept swept
  rw [judges.round_eq countdown] at swept ⊢
  obtain ⟨same, kept⟩ := sweep_of_removals_eq_zero (RoundEnd.swept.inj swept)
  dsimp only
  rw [same]
  have opened := regular.opening limit
  refine { judges.settled regular with regular := opened, stuck := fun e member verdict => ?_ }
  have among := (mem_deadAmong judges.verdicts).mpr ⟨(mem_edges opened.listed).mpr member, verdict⟩
  exact (remove?_eq_none_iff (opened.listed.find?_eq_some member)).mp (kept e among)

theorem run_normal (regular : p.Regular) (fine : (p.run i).error = none)
    (running : (p.run i).pass.cancelled = false) : (p.run i).pass.Normal := by
  obtain ⟨q, limit, countdown, comes, swept, same⟩ := exists_last_round fine running
  obtain ⟨_, progress⟩ := comes.progress
  show (p.rounds i 1).pass.Normal
  rw [same]
  exact normal_of_swept (progress.regular regular) swept

theorem identified_listing (p : Pass) : Edge.Identified p.edges := fun _ left _ right =>
  p.graph.eq_of_id_eq (mem_graph_of_mem_edges left) (mem_graph_of_mem_edges right)

theorem Normal.isLiveness (normal : p.Normal) :
    Solver.IsLiveness p.program.architecture p.edges ⟨p.analysis, p.live, ∅⟩ := by
  have inside {e : Edge Location} : e ∈ p.edges ↔ e ∈ p.graph.edges :=
    mem_edges normal.regular.listed
  have there : HaveCopies p.graph.edges p.edges := Edge.haveCopies_of_subset fun _ => inside.mpr
  have back : HaveCopies p.edges p.graph.edges := Edge.haveCopies_of_subset fun _ => inside.mp
  refine ⟨fun l => ?_, fun l names found v => ?_⟩
  · rw [OrderedMap.mem_keys, normal.keys]
    constructor
    · intro left
      obtain ⟨e, member, ends⟩ := normal.regular.joined l left
      exact ⟨e, inside.mpr member, ends.imp Eq.symm Eq.symm⟩
    · rintro ⟨e, listed, rfl | rfl⟩
      · exact (p.graph.ends_mem e (inside.mp listed)).1
      · exact (p.graph.ends_mem e (inside.mp listed)).2
  · have left : l ∈ p.graph.nodes := by
      obtain ⟨set, known, _⟩ := Option.map_eq_some_iff.mp found
      exact (normal.keys l).mp (by rw [known]; rfl)
    rw [Solver.mem_names_iff found]
    exact (normal.live_iff l left v).trans (there.liveAt_iff back)

theorem Normal.liveNames_eq (normal : p.Normal) :
    (liveness p.program.architecture p.edges).ending = .converged ∧
      ∀ l, p.liveNames l = (liveness p.program.architecture p.edges).solver.names l := by
  have native : ∀ e ∈ p.edges, e.statement.IsNative := fun e listed =>
    normal.native e (mem_graph_of_mem_edges listed)
  obtain ⟨ended, computed⟩ := Solver.run_arranged p.program.architecture p.identified_listing
    native .smallest
  exact ⟨ended, normal.isLiveness.names_eq computed⟩

theorem outDegree_eq_of_perm {g h : Graph Location} (same : h.edges.Perm g.edges) (l : Location) :
    h.outDegree l = g.outDegree l :=
  (same.filter _).length_eq

/-- A verdict depends on what the edges look like only, not on their ids or the order in which the graph
has them, nor on how the analysis has numbered the variables. -/
theorem Settled.isDead_copy {f : Edge Location} (left : p.Settled) (right : q.Settled)
    (sameProgram : q.program = p.program) (sameThreading : q.threading = p.threading)
    (there : HaveCopies q.graph.edges p.graph.edges) (back : HaveCopies p.graph.edges q.graph.edges)
    (degrees : ∀ l, q.graph.outDegree l = p.graph.outDegree l) (copy : e.isCopy f = true)
    (member : e ∈ p.graph.edges) (listed : f ∈ q.graph.edges) : q.isDead f = p.isDead e := by
  obtain ⟨source, target, statement⟩ := Edge.isCopy_iff.mp copy
  unfold Pass.isDead Program.isDead
  rw [← statement]
  cases e.statement with
  | assign x rhs =>
      obtain ⟨first, foundFirst, firstIff⟩ := left.exists_live (p.graph.ends_mem e member).2
      obtain ⟨second, foundSecond, secondIff⟩ := right.exists_live (q.graph.ends_mem f listed).2
      have agree : q.analysis.isLive second x = p.analysis.isLive first x := by
        rw [Bool.eq_iff_iff, firstIff, secondIff, sameProgram, target, there.liveAt_iff back]
      simp only [foundFirst, foundSecond, agree]
  | assume condition kind =>
      simp only [Program.isThreadable, Edge.crosses, degrees, sameProgram, sameThreading, source,
        target]
  | skip | store | halt | call | foreign => rfl

theorem Settled.isDead_congr (left : p.Settled) (right : q.Settled)
    (sameProgram : q.program = p.program) (sameThreading : q.threading = p.threading)
    (same : q.graph.edges.Perm p.graph.edges) (member : e ∈ p.graph.edges) :
    q.isDead e = p.isDead e := by
  have there : HaveCopies q.graph.edges p.graph.edges :=
    Edge.haveCopies_of_subset fun _ => same.mem_iff.mp
  have back : HaveCopies p.graph.edges q.graph.edges :=
    Edge.haveCopies_of_subset fun _ => same.mem_iff.mpr
  exact left.isDead_copy right sameProgram sameThreading there back (outDegree_eq_of_perm same)
    e.isCopy_refl member (same.mem_iff.mpr member)

theorem Judges.round_of_stuck (judges : p.Judges limit dead) (countdown : Option Nat)
    (stuck : ∀ e ∈ dead, (p.opening limit).pass.remove? e.id = none) :
    (p.round limit countdown).ending = .swept 0 ∧
      (p.round limit countdown).pass = (p.opening limit).pass := by
  simp only [judges.round_eq countdown, sweep_of_stuck stuck, and_self]

theorem rounds_of_swept (running : p.cancelled = false)
    (swept : (p.round (i.limit number) i.afterRemovals).ending = .swept 0) :
    (p.rounds i number).error = none ∧
      (p.rounds i number).pass = (p.round (i.limit number) i.afterRemovals).pass := by
  fun_cases rounds p i number with
  | case1 cancelled => cases running.symm.trans cancelled
  | case2 _ _ _ ending | case3 _ _ ending => cases ending.symm.trans swept
  | case4 => exact ⟨rfl, rfl⟩
  | case5 _ r removals ending more =>
      cases ending.symm.trans swept
      exact absurd rfl more

/-- Over native statements only a request to stop keeps a round from judging. -/
theorem exists_judges (regular : p.Regular) (native : p.graph.IsNative)
    (running : (p.opening limit).pass.cancelled = false) : ∃ dead, p.Judges limit dead := by
  have sound := Solver.seed_sound p.graph regular.inOrder.toWellFormed
  have computed : (p.opening limit).outcome.ending = .converged := by
    refine (sound.run_ends native _ limit).resolve_right fun cut => ?_
    rw [cancelled_of_interrupted p limit cut] at running
    cases running
  have settled : (p.opening limit).pass.Settled :=
    analyze_settled native regular.inOrder.toWellFormed regular.machine computed
  obtain ⟨dead, verdicts⟩ := exists_deadAmong fun e listed =>
    settled.exists_verdict (mem_graph_of_mem_edges (p := (p.opening limit).pass) listed)
  exact ⟨dead, computed, running, verdicts⟩

theorem opening_running (running : p.cancelled = false) :
    (p.opening none).pass.cancelled = false := by
  simp [opening, analyze, running]

/-- A run takes one round, removes nothing, and leaves the edges as they are and in their order. -/
structure Resting (p : Pass) : Prop where
  error_eq : (p.run {}).error = none
  iterations_eq : (p.run {}).pass.iterations = p.iterations + 1
  removed_eq : (p.run {}).pass.removed = p.removed
  edges_eq : (p.run {}).pass.edges = p.edges

/-- An elimination over the edges of a normal form finds the verdicts of the normal form again, and so
no edge that it can remove. -/
theorem Normal.resting (normal : p.Normal) (regular : q.Regular) (running : q.cancelled = false)
    (sameProgram : q.program = p.program) (sameThreading : q.threading = p.threading)
    (same : q.graph.edges.Perm p.graph.edges) : q.Resting := by
  have native : q.graph.IsNative := fun e member => normal.native e (same.mem_iff.mp member)
  have sameOpened : (q.opening none).pass.graph.edges.Perm p.graph.edges := same
  obtain ⟨dead, judges⟩ := exists_judges regular native (opening_running running)
  -- Both verdicts and out-degrees can be read off the normal form, where every dead edge is stuck.
  have kept : ∀ e ∈ dead, (q.opening none).pass.remove? e.id = none := by
    intro e among
    obtain ⟨listed, verdict⟩ := (mem_deadAmong judges.verdicts).mp among
    have member := mem_graph_of_mem_edges listed
    have inside : e ∈ p.graph.edges := same.mem_iff.mp member
    rw [normal.isDead_congr (judges.settled regular) sameProgram sameThreading same inside] at verdict
    have found := (regular.opening none).listed.find?_eq_some member
    rw [remove?_eq_none_iff found, outDegree_eq_of_perm sameOpened]
    exact normal.stuck e inside verdict
  obtain ⟨swept, left⟩ := judges.round_of_stuck none kept
  obtain ⟨fine, last⟩ := rounds_of_swept (i := {}) running swept
  have ended : (q.run {}).pass = (q.opening none).pass := last.trans left
  exact ⟨fine, by rw [ended]; rfl, by rw [ended]; rfl, by rw [ended]; rfl⟩

theorem Regular.arrange_edges (regular : p.Regular) : Edge.arrange p.edges = p.edges := by
  have inside {e : Edge Location} : e ∈ p.edges → e ∈ p.graph.edges := mem_graph_of_mem_edges
  refine Edge.arrange_eq_self (Edge.sort_keyLe_pairwise _) ?_ ?_
  · exact regular.edges_perm.nodup_iff.mpr p.graph.nodup_edges
  · exact fun e left f right => regular.distinct e (inside left) f (inside right)

theorem Regular.graph_ofEdges_perm (regular : p.Regular) (program : Program) (threading : Bool) :
    (ofEdges program threading p.edges).graph.edges.Perm p.graph.edges := by
  have same := Graph.edges_ofEdges_perm p.identified_listing.arrange (Edge.nodup_arrange p.edges)
  refine same.trans ?_
  rw [regular.arrange_edges]
  exact regular.edges_perm

/-- A new elimination over the edges that one lists lists the same. -/
theorem Regular.edges_ofEdges (regular : p.Regular) (program : Program) (threading : Bool) :
    (ofEdges program threading p.edges).edges = p.edges := by
  let fresh := ofEdges program threading p.edges
  have found : ∀ e ∈ p.edges, fresh.graph.find? e.id = some e := by
    intro e listed
    have member := (regular.graph_ofEdges_perm program threading).mem_iff.mpr
      (mem_graph_of_mem_edges listed)
    exact Graph.find?_eq_some_iff.mpr ⟨member, rfl⟩
  have listing : (p.edges.map Edge.id).filterMap fresh.graph.find? = p.edges := by
    rw [List.filterMap_map]
    exact (List.filterMap_congr found).trans List.filterMap_some
  show sort Edge.keyLe (((Edge.arrange p.edges).map Edge.id).filterMap fresh.graph.find?) = p.edges
  rw [regular.arrange_edges, listing]
  exact sort_eq_self (Edge.sort_keyLe_pairwise _)

/-- A run that returns uncancelled reaches a normal form. What it holds to be live is the liveness of
the edges that are left; every edge can be judged, and a dead one is one of several ways out of its
source; and neither another run nor a new elimination over these edges changes anything, in whatever
order it visits the locations. -/
theorem run_reaches_normal_form (program : Program) (threading : Bool)
    (schedule : Nat → Schedule Location) {edges : List (Edge Location)}
    (identified : Edge.Identified edges) :
    let start := { ofEdges program threading edges with schedule }
    ∀ p, Reached start p → ∀ i, (p.run i).error = none → (p.run i).pass.cancelled = false →
      let result := (p.run i).pass
      let computed := liveness program.architecture result.edges
      (computed.ending = .converged ∧ ∀ l, result.liveNames l = computed.solver.names l) ∧
      (∀ e ∈ result.edges, ∃ dead, result.isDead e = .ok dead ∧
        (dead = true → 2 ≤ result.graph.outDegree e.source)) ∧
      result.Resting ∧
      ∀ schedule, let fresh := { ofEdges program threading result.edges with schedule }
        fresh.Resting ∧ fresh.edges = result.edges := by
  intro start p reached i fine running result computed
  obtain ⟨_, progress⟩ := reached.progress
  obtain ⟨_, further, _⟩ := p.run_progress i
  obtain ⟨sameProgram, sameThreading⟩ := (progress.trans further).settings
  have normal : result.Normal := run_normal
    (progress.regular (ofEdges_regular program threading schedule identified)) fine running
  have live := normal.liveNames_eq
  rw [sameProgram] at live
  refine ⟨live, fun e listed => ?_, ?_, fun schedule => ?_⟩
  · have member := mem_graph_of_mem_edges listed
    obtain ⟨dead, verdict⟩ := normal.exists_verdict member
    refine ⟨dead, verdict, fun isDead => ?_⟩
    exact normal.stuck e member (isDead ▸ verdict)
  · exact normal.resting normal.regular running rfl rfl (.refl _)
  · have fresh := ofEdges_regular program threading schedule result.identified_listing
    have same := normal.regular.graph_ofEdges_perm program threading
    exact ⟨normal.resting fresh rfl sameProgram.symm sameThreading.symm same,
      normal.regular.edges_ofEdges program threading⟩

/-- A skip that is one of two ways out, behind one that is not. -/
def stuckSkip : List (Edge Location) :=
  [⟨0, ⟨0x1000, 0⟩, ⟨0x1001, 0⟩, .skip⟩,
   ⟨1, ⟨0x1001, 0⟩, ⟨0x1002, 0⟩, .skip⟩,
   ⟨2, ⟨0x1001, 0⟩, ⟨0x1003, 0⟩, .assume (.var "ecx") .ordinary⟩,
   ⟨3, ⟨0x1004, 0⟩, ⟨0x1000, 0⟩, .assign "eax" (.var "ebx")⟩]

theorem stuckSkip_normal :
    let start := ofEdges { architecture := .x86 } false stuckSkip
    let result := (start.run {}).pass
    Edge.Identified stuckSkip ∧ result.removed = 1 ∧ result.edges.map Edge.id = [1, 2, 3] ∧
      result.isDead ⟨1, ⟨0x1001, 0⟩, ⟨0x1002, 0⟩, .skip⟩ = .ok true ∧
      result.Resting ∧ Resting { ofEdges { architecture := .x86 } false result.edges with
        schedule := fun _ => .largest } := by
  intro start result
  have identified : Edge.Identified stuckSkip := by decide +kernel
  have left : (start.run {}).error.isNone = true ∧ result.cancelled = false ∧ result.removed = 1 ∧
      result.edges.map Edge.id = [1, 2, 3] := by decide +kernel
  obtain ⟨fine, running, removed, edges⟩ := left
  have normal := run_reaches_normal_form { architecture := .x86 } false (fun _ => .smallest)
    identified start .start {} (Option.isNone_iff_eq_none.mp fine) running
  exact ⟨identified, removed, edges, rfl, normal.2.2.1, (normal.2.2.2 fun _ => .largest).1⟩

end Deadwood.Pass
