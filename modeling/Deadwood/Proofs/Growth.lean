import Mathlib.Data.Finset.Prod
import Deadwood.Proofs.Convergence

namespace Deadwood

/-!
How live sets change in a run from a seed. Main statement: whatever is visited first, every update
replaces a live set by a strictly larger one, exits keep what they were seeded with, there are at
most as many updates as pairs of a node with a way out and a variable, and the worklist runs empty.
-/

variable {ν : Type}

namespace Graph

/-- The variables that are registers or that a statement defines or reads. -/
def varNames (g : Graph ν) (a : Architecture) : Finset String :=
  (a.registerNames ++ g.edges.flatMap fun e =>
    e.statement.defines.toOption.getD [] ++ e.statement.reads.toOption.getD []).toFinset

theorem mem_varNames_of_mem_vocabulary {g : Graph ν} {a : Architecture} {v : String}
    (member : v ∈ g.vocabulary a) : v ∈ g.varNames a := by
  rw [varNames, List.mem_toFinset, List.mem_append]
  rcases List.mem_append.mp member with register | named
  · exact .inl register
  · obtain ⟨e, listed, read⟩ := List.mem_flatMap.mp named
    exact .inr (List.mem_flatMap.mpr ⟨e, listed, List.mem_append_right _ read⟩)

variable [DecidableEq ν]

/-- The nodes from which an edge leads on. -/
def ways (g : Graph ν) : List ν := g.nodes.filter (g.outDegree · ≠ 0)

theorem outDegree_eq_zero_iff {g : Graph ν} {n : ν} : g.outDegree n = 0 ↔ IsExit g.edges n := by
  rw [isExit_iff_outgoing, outDegree, List.length_eq_zero_iff]

theorem mem_ways {g : Graph ν} {n : ν} : n ∈ g.ways ↔ ¬ IsExit g.edges n := by
  rw [ways, List.mem_filter, decide_eq_true_eq, ne_eq, outDegree_eq_zero_iff]
  exact ⟨And.right, fun way => ⟨g.mem_nodes_of_way way, way⟩⟩

end Graph

namespace Solver

variable [DecidableEq ν]

/-- The update concerns a node with a way out, tells the live set that the node has, and gives it one
that is strictly larger. -/
def Enlarges (g : Graph ν) (live : LiveMap ν) (update : Update ν) : Prop :=
  update.node ∈ g.ways ∧ ∃ old, live.get? update.node = some old ∧ update.before = some old ∧
    old.isSubset update.after = true ∧ old ≠ update.after

/-- The updates lead one after the other from the first live map to the second, and each of them
makes a live set larger. -/
def Grows (g : Graph ν) : LiveMap ν → List (Update ν) → LiveMap ν → Prop
  | live, [], final => live = final
  | live, update :: later, final =>
      Enlarges g live update ∧ Grows g (live.insert update.node update.after) later final

variable {g : Graph ν} {live final : LiveMap ν} {trace : List (Update ν)} {n : ν}

theorem Grows.get?_eq_of_isExit (grows : Grows g live trace final) (last : IsExit g.edges n) :
    final.get? n = live.get? n := by
  induction trace generalizing live with
  | nil => rw [show live = final from grows]
  | cons update later ih =>
      obtain ⟨⟨way, _⟩, rest⟩ := grows
      have apart : n ≠ update.node := fun same => Graph.mem_ways.mp way (same ▸ last)
      rw [ih rest, OrderedMap.get?_insert, if_neg apart]

variable [Node ν] {s t : Solver ν} {update : Update ν}

theorem update_of_step (stepped : s.step g n = (.ok (some update), t)) :
    update.node = n ∧ update.before = s.live.get? n ∧ t.live = s.live.insert n update.after := by
  unfold step visit at stepped
  cases ways : g.outgoing n with
  | nil =>
      rw [ways] at stepped
      cases stepped
  | cons e es =>
      simp only [ways] at stepped
      cases found : beforeAll s.analysis s.live e es with
      | mk result b =>
          simp only [found] at stepped
          cases result with
          | error => cases stepped
          | ok after =>
              dsimp only at stepped
              split at stepped
              · cases stepped
              · cases stepped
                exact ⟨rfl, rfl, rfl⟩

/-- An update makes the live set of its node strictly larger, since what the node has is demanded of
it and it lacks something that is. -/
theorem Sound.enlarges (sound : Sound g s) (native : g.IsNative)
    (stepped : s.step g n = (.ok (some update), t)) : Enlarges g s.live update := by
  obtain ⟨_, _, found, formed, grown, visited⟩ := step_eq_ok sound.toFormed (native.outgoing n)
  rw [stepped] at found
  cases found
  obtain ⟨sameNode, told, lookup⟩ := update_of_step stepped
  obtain ⟨way, gained, missing, there⟩ := sound.exists_gained visited
  obtain ⟨old, current⟩ :=
    Option.isSome_iff_exists.mp ((sound.keys n).mpr (g.mem_nodes_of_way way))
  have after : t.live.get? n = some update.after := by
    rw [lookup, OrderedMap.get?_insert, if_pos rfl]
  have oldIff (v : String) : t.analysis.isLive old v = true ↔ s.Live n v := by
    rw [grown.isLive_iff (sound.bounded n old current) v]
    simp [Live, LiveIn, current]
  have afterIff (v : String) : t.analysis.isLive update.after v = true ↔ t.Live n v := by
    simp [Live, LiveIn, after]
  have below : old.isSubset update.after = true := by
    rw [VarSet.isSubset_iff]
    apply Universe.mem_of_holds ((sound.bounded n old current).mono grown.table)
    intro v holds
    exact (afterIff v).mpr (sound.live_mono visited ((oldIff v).mp holds))
  have different : old ≠ update.after := by
    intro same
    rw [← afterIff, ← same, oldIff] at there
    exact missing there
  subst sameNode
  exact ⟨Graph.mem_ways.mpr way, old, current, told.trans current, below, different⟩

/-- The pairs of a node with a way out and a variable that is not live there yet. -/
def gaps (g : Graph ν) (s : Solver ν) : Finset (ν × String) :=
  (g.ways.toFinset ×ˢ g.varNames s.analysis.architecture).filter fun fact =>
    s.isLive fact.1 fact.2 = false

theorem mem_gaps {v : String} :
    (n, v) ∈ s.gaps g ↔
      (n ∈ g.ways ∧ v ∈ g.varNames s.analysis.architecture) ∧ ¬ s.Live n v := by
  rw [gaps, Finset.mem_filter, Finset.mem_product, List.mem_toFinset, ← isLive_iff,
    Bool.not_eq_true]

theorem card_gaps_le (g : Graph ν) (s : Solver ν) :
    (s.gaps g).card ≤ g.ways.length * (g.varNames s.analysis.architecture).card :=
  calc (s.gaps g).card
      ≤ (g.ways.toFinset ×ˢ g.varNames s.analysis.architecture).card := Finset.card_filter_le ..
    _ = g.ways.toFinset.card * (g.varNames s.analysis.architecture).card := Finset.card_product ..
    _ ≤ g.ways.length * (g.varNames s.analysis.architecture).card :=
        Nat.mul_le_mul_right _ (List.toFinset_card_le _)

theorem Sound.gaps_subset (sound : Sound g s)
    (sameMachine : t.analysis.architecture = s.analysis.architecture)
    {result : Option (Update ν)} (visited : Visited g s n t result) : t.gaps g ⊆ s.gaps g := by
  rintro ⟨m, v⟩ gap
  rw [mem_gaps, sameMachine] at gap
  exact mem_gaps.mpr ⟨gap.1, fun live => gap.2 (sound.live_mono visited live)⟩

theorem Sound.card_gaps_lt (sound : Sound g s) (after : Sound g t)
    (sameMachine : t.analysis.architecture = s.analysis.architecture)
    (visited : Visited g s n t (some update)) : (t.gaps g).card < (s.gaps g).card := by
  obtain ⟨way, v, missing, gained⟩ := sound.exists_gained visited
  have named : v ∈ g.varNames s.analysis.architecture := by
    rw [← sameMachine]
    exact Graph.mem_varNames_of_mem_vocabulary (Graph.mem_vocabulary (after.below n v gained))
  apply Finset.card_lt_card
  rw [Finset.ssubset_iff_of_subset (sound.gaps_subset sameMachine visited)]
  refine ⟨(n, v), mem_gaps.mpr ⟨⟨Graph.mem_ways.mpr way, named⟩, missing⟩, fun gap => ?_⟩
  exact (mem_gaps.mp gap).2 gained

/-- A series of visits makes live sets grow, and every update is counted and fills a gap. -/
structure Ascends (g : Graph ν) (s : Solver ν) (o : Outcome ν) : Prop where
  grows : Grows g s.live o.trace o.solver.live
  counts : o.updates = o.trace.length
  fills : o.updates + (o.solver.gaps g).card ≤ (s.gaps g).card

theorem iterate_ascends (native : g.IsNative) (sound : Sound g s) (schedule : Schedule ν)
    (visits number : Nat) (limit : Option Nat) :
    Ascends g s (iterate g schedule visits number limit s) := by
  fun_induction iterate g schedule visits number limit s with
  | case1 | case2 | case3 => exact ⟨rfl, rfl, by simp⟩
  | case4 number limit s n picked below visits failure t failed =>
      obtain ⟨update, u, stepped, _⟩ := step_eq_ok sound.toFormed (native.outgoing n)
      rw [stepped] at failed
      cases failed
  | case5 number limit s n picked below visits t stepped ih =>
      obtain ⟨_, _, found, formed, grown, visited⟩ := step_eq_ok sound.toFormed (native.outgoing n)
      rw [stepped] at found
      cases found
      have rest := ih (sound.visited formed grown.architecture_eq visited)
      have fewer := Finset.card_le_card (sound.gaps_subset grown.architecture_eq visited)
      cases visited with
      | kept unchanged =>
          exact ⟨unchanged ▸ rest.grows, rest.counts, Nat.le_trans rest.fills fewer⟩
  | case6 number limit s n picked below visits update t stepped later ih =>
      obtain ⟨_, _, found, formed, grown, visited⟩ := step_eq_ok sound.toFormed (native.outgoing n)
      rw [stepped] at found
      cases found
      have after := sound.visited formed grown.architecture_eq visited
      have rest := ih after
      have fewer := sound.card_gaps_lt after grown.architecture_eq visited
      obtain ⟨sameNode, _, lookup⟩ := update_of_step stepped
      have filled : later.updates + (later.solver.gaps g).card ≤ (t.gaps g).card := rest.fills
      refine ⟨⟨sound.enlarges native stepped, ?_⟩, congrArg (· + 1) rest.counts, ?_⟩
      · rw [sameNode, ← lookup]
        exact rest.grows
      · show (later.updates + 1) + (later.solver.gaps g).card ≤ _
        omega

/-- A worklist started from a seed only lets live sets grow, and ends, in whatever order it visits the
nodes. At any moment the updates so far lead, each to a strictly larger set, from the seed to the
live sets there are; exits have all registers still; and the updates are no more than the nodes with
a way out times the variables. Not interrupted, nothing is pending after finitely many visits. -/
theorem seeded_run_grows_and_ends {g : Graph ν} (native : g.IsNative) {a : Analysis}
    (formed : a.WellFormed) (schedule : Schedule ν) :
    (∀ visits limit,
      let outcome := iterate g schedule visits 0 limit (seed g a)
      Grows g (seed g a).live outcome.trace outcome.solver.live ∧
      (∀ n ∈ g.sinks, outcome.solver.live.get? n = some a.atExit) ∧
      outcome.updates = outcome.trace.length ∧
      outcome.updates ≤ g.ways.length * (g.varNames a.architecture).card) ∧
    ∃ pops ≤ visitBound g (seed g a), ∀ visits ≥ pops,
      let outcome := iterate g schedule visits 0 none (seed g a)
      outcome.ending = .converged ∧ outcome.solver.pending.isEmpty = true := by
  have sound := seed_sound g formed
  constructor
  · intro visits limit outcome
    have ascends := iterate_ascends native sound schedule visits 0 limit
    refine ⟨ascends.grows, fun n sink => ?_, ascends.counts, ?_⟩
    · obtain ⟨inside, last⟩ := List.mem_filter.mp sink
      have last := of_decide_eq_true last
      rw [ascends.grows.get?_eq_of_isExit (Graph.outDegree_eq_zero_iff.mp last)]
      simp only [seed, OrderedMap.get?_ofKeys, if_pos inside, if_pos last]
    · have room : ((seed g a).gaps g).card ≤ g.ways.length * (g.varNames a.architecture).card :=
        card_gaps_le g (seed g a)
      have filled : outcome.updates + (outcome.solver.gaps g).card ≤ ((seed g a).gaps g).card :=
        ascends.fills
      omega
  · refine ⟨(seed g a).effort g, effort_le_visitBound g _, ?_⟩
    intro visits enough outcome
    have continues := iterate_continues native sound schedule visits 0 none
    have ended : outcome.ending = .converged :=
      (sound.iterate_ends native schedule enough 0 none).resolve_right fun cut =>
        continues.interrupted cut rfl
    exact ⟨ended, continues.converged ended⟩

/-- Visited from its head on, the loop settles in five visits with three updates. -/
theorem countdown_grows_and_ends :
    let g := Graph.ofEdges countdown
    let a := Analysis.ofArchitecture .x86
    let outcome := iterate g .smallest 5 0 none (seed g a)
    g.IsNative ∧ a.WellFormed ∧ outcome.updates = 3 ∧ outcome.solver.pending.isEmpty = true ∧
      g.ways.length = 2 ∧ Grows g (seed g a).live outcome.trace outcome.solver.live ∧
      outcome.updates ≤ g.ways.length * (g.varNames a.architecture).card ∧
      ∃ pops, ∀ visits ≥ pops,
        (iterate g .smallest visits 0 none (seed g a)).ending = .converged := by
  have counts :
      let g := Graph.ofEdges countdown
      let outcome := iterate g .smallest 5 0 none (seed g (.ofArchitecture .x86))
      outcome.updates = 3 ∧ outcome.solver.pending.isEmpty = true ∧ g.ways.length = 2 := by
    decide +kernel
  have native : ∀ e ∈ (Graph.ofEdges countdown).edges, e.statement.IsNative := by decide +kernel
  have formed := Analysis.ofArchitecture_wellFormed .x86
  have grown := seeded_run_grows_and_ends native formed .smallest
  have moment := grown.1 5 none
  obtain ⟨pops, _, ends⟩ := grown.2
  exact ⟨native, formed, counts.1, counts.2.1, counts.2.2, moment.1, moment.2.2.2, pops,
    fun visits enough => (ends visits enough).1⟩

end Solver

end Deadwood
