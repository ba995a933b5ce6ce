import Deadwood.Proofs.Recomputation

namespace Deadwood

/-!
The equations of liveness, from any starting point: the live set of a node is to be the union of what
is live before the edges out of it. Main statement: if every node with a way out satisfies its
equation or is pending, then this is so at every moment of a run, however wrong the live sets were at
first; so a run that leaves nothing pending has solved the equations, and running again changes
nothing.
-/

namespace Solver

variable {ν : Type} [DecidableEq ν] {a b : Analysis} {live : LiveMap ν} {g : Graph ν} {n m : ν}

/-- The node has a live set, and this is the union of what is live before the edges out of it. -/
def SatisfiedIn (g : Graph ν) (a : Analysis) (live : LiveMap ν) (n : ν) : Prop :=
  ∃ set, live.get? n = some set ∧ Joins a live (g.outgoing n) set

/-- A satisfied node stays satisfied while the analysis meets other statements: what its edges ask
for has ids already, so it keeps them. -/
theorem SatisfiedIn.mono (satisfied : SatisfiedIn g a live n) (inOrder : a.InOrder)
    (bounded : Bounded a live) (after : b.InOrder) (grown : a.GrowsTo b) :
    SatisfiedIn g b live n := by
  obtain ⟨set, found, joins⟩ := satisfied
  refine ⟨set, found, joins.congr fun e member => ?_⟩
  obtain ⟨out, told⟩ := joins.told e member
  have native := (before_inOrder inOrder live e).2.2 out told
  have known := isSome_of_before_eq_ok told
  obtain ⟨_, c, first, grownFirst, _, boundedFirst, firstIff⟩ :=
    before_eq_ok inOrder.toWellFormed bounded native known
  obtain ⟨second, d, again, grownSecond, _, boundedSecond, secondIff⟩ :=
    before_eq_ok after.toWellFormed (bounded.mono grown) native known
  rw [first] at told
  cases told
  have within : a.table.Bounds out := fun id inside =>
    bounded n set found id ((joins.mem_iff id).mpr ⟨e, member, out, by rw [first], inside⟩)
  have same : out = second := by
    apply Universe.eq_of_holds_iff (u := d.table) (within.mono (grown.trans grownSecond).table)
      boundedSecond
    intro v
    calc d.isLive out v = true
        ↔ a.isLive out v = true := (grown.trans grownSecond).isLive_iff within v
      _ ↔ c.isLive out v = true := (grownFirst.isLive_iff within v).symm
      _ ↔ Demanded a live [e] v := firstIff v
      _ ↔ Demanded b live [e] v := (bounded.demanded_iff grown).symm
      _ ↔ d.isLive second v = true := (secondIff v).symm
  rw [first, again, same]

variable [Node ν] {s t : Solver ν} {update : Option (Update ν)}

def Satisfied (g : Graph ν) (s : Solver ν) (n : ν) : Prop := SatisfiedIn g s.analysis s.live n

/-- A node that satisfies its equation, seen with the analysis there is now, or that is pending, or
that has just been visited, satisfies its equation or is pending. -/
theorem Recomputed.satisfied_or_pending (recomputed : Recomputed g s n update t) (way : m ∈ g.ways)
    (earlier : m = n ∨ SatisfiedIn g t.analysis s.live m ∨ m ∈ s.pending) :
    t.Satisfied g m ∨ m ∈ t.pending := by
  by_cases touched : t.live.get? n ≠ s.live.get? n ∧ ∃ e ∈ g.edges, e.target = n ∧ e.source = m
  · exact .inr ((recomputed.pending_iff m).mpr (.inr touched))
  · -- No edge out of the node leads to a live set that is another now.
    have targets : ∀ e ∈ g.outgoing m,
        (before t.analysis t.live e).1 = (before t.analysis s.live e).1 := by
      intro e member
      obtain ⟨listed, leaves⟩ := Graph.mem_outgoing.mp member
      have kept : t.live.get? e.target = s.live.get? e.target := by
        by_cases same : e.target = n
        · rw [same]
          exact Classical.byContradiction fun other => touched ⟨other, e, listed, same, leaves⟩
        · exact recomputed.elsewhere _ same
      rw [before_congr kept]
    by_cases same : m = n
    · subst same
      obtain ⟨after, here, joins⟩ := recomputed.way way
      exact .inl ⟨after, here, joins.congr targets⟩
    · rcases earlier.resolve_left same with ⟨set, found, joins⟩ | pending
      · exact .inl ⟨set, (recomputed.elsewhere m same).trans found, joins.congr targets⟩
      · exact .inr ((recomputed.pending_iff m).mpr (.inl ⟨pending, same⟩))

theorem InOrder.satisfied_or_pending (inOrder : s.InOrder)
    (stepped : s.step g n = (.ok update, t)) (way : m ∈ g.ways)
    (earlier : s.Satisfied g m ∨ m ∈ s.pending) : t.Satisfied g m ∨ m ∈ t.pending := by
  obtain ⟨after, grown⟩ := inOrder.step g n
  rw [stepped] at after grown
  have seen : SatisfiedIn g t.analysis s.live m ∨ m ∈ s.pending :=
    earlier.imp_left fun satisfied =>
      satisfied.mono inOrder.analysis inOrder.bounded after.analysis grown
  exact (step_recomputed stepped).satisfied_or_pending way (.inr seen)

/-- A failure takes no node from those that satisfy their equation or are pending but its own. -/
theorem InOrder.satisfied_or_pending_of_failed {failure : Failure ν} (inOrder : s.InOrder)
    (stepped : s.step g n = (.error failure, t)) (earlier : s.Satisfied g m ∨ m ∈ s.pending) :
    t.Satisfied g m ∨ m ∈ t.pending ∨ failure.edge.source = m := by
  obtain ⟨after, grown⟩ := inOrder.step g n
  rw [stepped] at after grown
  obtain ⟨kept, left, e, member, blames⟩ := step_failed inOrder.analysis stepped
  rcases earlier with satisfied | pending
  · have seen := satisfied.mono inOrder.analysis inOrder.bounded after.analysis grown
    exact .inl (show SatisfiedIn g t.analysis t.live m from kept ▸ seen)
  · by_cases same : m = n
    · rw [blames.edge_eq, (Graph.mem_outgoing.mp member).2]
      exact .inr (.inr same.symm)
    · rw [left]
      exact .inr (.inl (SortedSet.mem_erase.mpr ⟨pending, same⟩))

/-- What a series of visits keeps, from any starting point. -/
structure Upholds (g : Graph ν) (s : Solver ν) (o : Outcome ν) : Prop where
  inOrder : o.solver.InOrder
  untouched : ∀ n ∉ g.ways, o.solver.live.get? n = s.live.get? n
  satisfied_or_pending : (∀ n ∈ g.ways, s.Satisfied g n ∨ n ∈ s.pending) →
    ∀ n ∈ g.ways, o.solver.Satisfied g n ∨ n ∈ o.solver.pending ∨
      ∃ failure, o.ending = .failed failure ∧ failure.edge.source = n

theorem Upholds.of_step {o : Outcome ν} (inOrder : s.InOrder)
    (stepped : s.step g n = (.ok update, t)) (rest : Upholds g t o) : Upholds g s o where
  inOrder := rest.inOrder
  untouched m last :=
    (rest.untouched m last).trans ((step_recomputed stepped).get?_eq_of_not_way last)
  satisfied_or_pending covered :=
    rest.satisfied_or_pending fun m way => inOrder.satisfied_or_pending stepped way (covered m way)

theorem iterate_upholds (inOrder : s.InOrder) (schedule : Schedule ν) (visits number : Nat)
    (limit : Option Nat) : Upholds g s (iterate g schedule visits number limit s) := by
  fun_induction iterate g schedule visits number limit s with
  | case1 | case2 | case3 =>
      exact ⟨inOrder, fun _ _ => rfl, fun covered n way => (covered n way).imp_right .inl⟩
  | case4 number limit s n picked below visits failure t failed =>
      have after := (inOrder.step g n).1
      rw [failed] at after
      obtain ⟨kept, _, _⟩ := step_failed inOrder.analysis failed
      refine ⟨after, fun m _ => by rw [kept], fun covered m way => ?_⟩
      have left := inOrder.satisfied_or_pending_of_failed failed (covered m way)
      exact left.imp_right (Or.imp_right fun source => ⟨failure, rfl, source⟩)
  | case5 number limit s n picked below visits t stepped ih =>
      have after := (inOrder.step g n).1
      rw [stepped] at after
      exact .of_step inOrder stepped (ih after)
  | case6 number limit s n picked below visits update t stepped rest ih =>
      have after := (inOrder.step g n).1
      rw [stepped] at after
      have later : Upholds g t rest := ih after
      exact .of_step inOrder stepped
        ⟨later.inOrder, later.untouched, later.satisfied_or_pending⟩

/-- A node whose equation is satisfied is visited in vain. -/
theorem InOrder.step_of_satisfied (inOrder : s.InOrder)
    (satisfied : n ∈ g.ways → s.Satisfied g n) :
    ∃ t, s.step g n = (.ok none, t) ∧ t.live = s.live ∧ t.pending = s.pending.erase n := by
  obtain ⟨after, grown⟩ := inOrder.step g n
  cases stepped : s.step g n with
  | mk result t =>
      rw [stepped] at after grown
      cases result with
      | error failure =>
          obtain ⟨_, _, e, member, blames⟩ := step_failed inOrder.analysis stepped
          obtain ⟨listed, leaves⟩ := Graph.mem_outgoing.mp member
          have way : n ∈ g.ways := Graph.mem_ways.mpr fun last => last e listed leaves
          obtain ⟨set, _, joins⟩ := satisfied way
          obtain ⟨out, told⟩ := joins.told e member
          rcases blames.reason with ⟨missing, _⟩ | ⟨foreign, _⟩
          · have known := isSome_of_before_eq_ok told
            simp [missing] at known
          · exact absurd ((before_inOrder inOrder.analysis s.live e).2.2 out told) foreign
      | ok update =>
          have recomputed := step_recomputed stepped
          have unchanged : t.live.get? n = s.live.get? n := by
            by_cases way : n ∈ g.ways
            · obtain ⟨computed, here, joins⟩ := recomputed.way way
              obtain ⟨set, found, also⟩ :=
                (satisfied way).mono inOrder.analysis inOrder.bounded after.analysis grown
              rw [here, found, joins.unique also]
            · exact recomputed.exit way
          have quiet : update = none :=
            Classical.byContradiction fun changed => recomputed.changed changed unchanged
          refine ⟨t, by rw [quiet], recomputed.kept quiet, SortedSet.ext fun m => ?_⟩
          rw [recomputed.pending_iff, SortedSet.mem_erase]
          simp [unchanged]

/-- Where all equations are satisfied, visits change nothing and take one node after the other from
the worklist. -/
theorem iterate_of_satisfied (inOrder : s.InOrder) (satisfied : ∀ n ∈ g.ways, s.Satisfied g n)
    (schedule : Schedule ν) {visits : Nat} (enough : s.pending.size ≤ visits) (number : Nat) :
    let outcome := iterate g schedule visits number none s
    outcome.ending = .converged ∧ outcome.trace = [] ∧ outcome.solver.live = s.live := by
  generalize noLimit : (none : Option Nat) = limit
  fun_induction iterate g schedule visits number limit s with
  | case1 => exact ⟨rfl, rfl, rfl⟩
  | case2 => cases noLimit
  | case3 number limit s n picked =>
      have occupied : 0 < s.pending.size := List.length_pos_of_mem (schedule.pick_mem picked)
      omega
  | case4 number limit s n picked below visits failure t failed =>
      obtain ⟨u, stepped, _⟩ := inOrder.step_of_satisfied (satisfied n)
      cases failed.symm.trans stepped
  | case5 number limit s n picked below visits t stepped ih =>
      obtain ⟨u, found, live, pending⟩ := inOrder.step_of_satisfied (satisfied n)
      cases stepped.symm.trans found
      have after := (inOrder.step g n).1
      rw [stepped] at after
      have fewer := SortedSet.size_erase_lt (schedule.pick_mem picked)
      have still : ∀ m ∈ g.ways, t.Satisfied g m := by
        intro m way
        have grown := (inOrder.step g n).2
        rw [stepped] at grown
        have seen := (satisfied m way).mono inOrder.analysis inOrder.bounded after.analysis grown
        exact show SatisfiedIn g t.analysis t.live m from live ▸ seen
      obtain ⟨ended, quiet, same⟩ := ih after still (by rw [pending]; omega) noLimit
      exact ⟨ended, quiet, same.trans live⟩
  | case6 number limit s n picked below visits update t stepped rest ih =>
      obtain ⟨u, found, _⟩ := inOrder.step_of_satisfied (satisfied n)
      cases stepped.symm.trans found

/-- Every node with a way out that does not satisfy its equation is pending, at every moment of a run
and whatever is visited first, if it was so at the beginning; only a node whose visit has failed is
neither. Live sets of other nodes are never touched. So once nothing is pending and nothing has failed
all equations are satisfied, and a run with every node pending ends without an update. -/
theorem unsatisfied_nodes_stay_pending {g : Graph ν} {s : Solver ν} (inOrder : s.InOrder)
    (covered : ∀ n ∈ g.ways, s.Satisfied g n ∨ n ∈ s.pending) (schedule : Schedule ν)
    (visits number : Nat) (limit : Option Nat) :
    let outcome := iterate g schedule visits number limit s
    (∀ n ∈ g.ways, outcome.solver.Satisfied g n ∨ n ∈ outcome.solver.pending ∨
      ∃ failure, outcome.ending = .failed failure ∧ failure.edge.source = n) ∧
    (∀ n ∉ g.ways, outcome.solver.live.get? n = s.live.get? n) ∧
    (outcome.solver.pending.isEmpty = true → (∀ failure, outcome.ending ≠ .failed failure) →
      (∀ n ∈ g.ways, outcome.solver.Satisfied g n) ∧
      ∀ other, let again := (outcome.solver.await g.nodes).run g other none
        again.ending = .converged ∧ again.trace = [] ∧ again.solver.live = outcome.solver.live) := by
  intro outcome
  have upholds := iterate_upholds (g := g) inOrder schedule visits number limit
  have balanced := upholds.satisfied_or_pending covered
  refine ⟨balanced, upholds.untouched, fun idle unfailing => ?_⟩
  have solved : ∀ n ∈ g.ways, outcome.solver.Satisfied g n := by
    intro n way
    rcases balanced n way with satisfied | pending | ⟨failure, failed, _⟩
    · exact satisfied
    · have occupied := SortedSet.isEmpty_eq_false_of_mem pending
      rw [idle] at occupied
      cases occupied
    · exact absurd failed (unfailing failure)
  refine ⟨solved, fun other => ?_⟩
  have awaiting : (outcome.solver.await g.nodes).InOrder := ⟨upholds.inOrder.1, upholds.inOrder.2⟩
  exact iterate_of_satisfied awaiting solved other (Nat.le_add_right ..) 0

theorem idle_inOrder (a : Architecture) : (idle a : Solver ν).InOrder :=
  ⟨Analysis.ofArchitecture_inOrder a, fun n set found => by simp [idle] at found⟩

theorem InOrder.assign (inOrder : s.InOrder) (n : ν) (vs : List Var) : (s.assign n vs).InOrder := by
  obtain ⟨formed, grown⟩ := inOrder.analysis.toWellFormed.intern vs
  refine ⟨{ formed with memo_native := inOrder.analysis.memo_native }, fun m set found => ?_⟩
  change (s.live.insert n (s.analysis.intern vs).1).get? m = some set at found
  rw [OrderedMap.get?_insert] at found
  split at found
  · cases found
    exact (s.analysis.table.internAll_spec vs).2.1
  · exact (inOrder.bounded m set found).mono grown.table

/-- Live sets of the loop that are not the least: a variable that no statement reads is live all the
way round. The head of the loop satisfies its equation, and the rest is pending. -/
def stale : Solver Location :=
  ((((idle .x86).assign ⟨0x1002, 0⟩ [⟨"eax", 32⟩]).assign ⟨0x1001, 0⟩ [⟨"tmp", 32⟩]).assign
    ⟨0x1000, 0⟩ [⟨"ecx", 32⟩, ⟨"tmp", 32⟩]).await [⟨0x1001, 0⟩]

theorem stale_solved :
    let g := Graph.ofEdges countdown
    let outcome := iterate g .smallest 3 0 none stale
    stale.InOrder ∧ (∀ n ∈ g.ways, stale.Satisfied g n ∨ n ∈ stale.pending) ∧
      outcome.ending = .converged ∧ outcome.updates = 2 ∧
      outcome.solver.isLive ⟨0x1000, 0⟩ "tmp" = true ∧
      (∀ n ∈ g.ways, outcome.solver.Satisfied g n) ∧
      ((outcome.solver.await g.nodes).run g .largest none).trace = [] := by
  intro g outcome
  have inOrder : stale.InOrder := by
    obtain ⟨analysis, bounded⟩ := (((idle_inOrder (ν := Location) .x86).assign ⟨0x1002, 0⟩
      [⟨"eax", 32⟩]).assign ⟨0x1001, 0⟩ [⟨"tmp", 32⟩]).assign ⟨0x1000, 0⟩
        [⟨"ecx", 32⟩, ⟨"tmp", 32⟩]
    exact ⟨analysis, bounded⟩
  have covered : ∀ n ∈ g.ways, stale.Satisfied g n ∨ n ∈ stale.pending := by
    have ways : g.ways = [⟨0x1000, 0⟩, ⟨0x1001, 0⟩] := by decide +kernel
    have head : g.outgoing ⟨0x1000, 0⟩ = [countdown[0]] := by decide +kernel
    intro n way
    rw [ways, List.mem_pair] at way
    rcases way with rfl | rfl
    · refine .inl ⟨(stale.live.get? ⟨0x1000, 0⟩).getD ∅, by decide +kernel, ?_⟩
      rw [head]
      exact .single (by decide +kernel)
    · exact .inr (by decide +kernel)
  have counts : outcome.ending = .converged ∧ outcome.updates = 2 ∧
      outcome.solver.isLive ⟨0x1000, 0⟩ "tmp" = true ∧ outcome.solver.pending.isEmpty = true := by
    decide +kernel
  obtain ⟨ended, updates, remains, idle⟩ := counts
  obtain ⟨_, _, solved⟩ := unsatisfied_nodes_stay_pending inOrder covered .smallest 3 0 none
  obtain ⟨all, again⟩ := solved idle fun failure failed => by cases ended.symm.trans failed
  exact ⟨inOrder, covered, ended, updates, remains, all, (again .largest).2.1⟩

end Solver

end Deadwood
