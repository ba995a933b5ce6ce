import Deadwood.Proofs.NormalForm
import Deadwood.Proofs.Preservation
import Deadwood.Proofs.Requests

namespace Deadwood

/-!
What a request to stop does. A round that has begun to remove edges is carried through, and one that
has not leaves them alone. Main statement: a run that is told to stop, at whatever moment, ends with
the edges that the run which is not stopped has behind some number of complete rounds; and from then
on no call changes anything.
-/

namespace LiveGraph

variable {ν : Type} [DecidableEq ν]

theorem graph_forget (s : LiveGraph ν) (n : ν) :
    (s.forget n).graph = if s.graph.isIsolated n then s.graph.discard n else s.graph := by
  unfold forget
  split <;> rfl

/-- Live sets do not matter to a contraction. -/
theorem contract_congr (g : Graph ν) (live others : LiveMap ν) (d : Edge ν) :
    (contract ⟨g, live⟩ d).1.graph = (contract ⟨g, others⟩ d).1.graph ∧
      (contract ⟨g, live⟩ d).2 = (contract ⟨g, others⟩ d).2 := by
  simp only [contract, graph_forget, and_self]

end LiveGraph

namespace Pass

variable {p q start : Pass} {i : Interrupts} {id number count : Nat}
  {limit countdown otherLimit otherCountdown : Option Nat} {dead others es : List (Edge Location)}
  {e : Edge Location} {r s : Removal} {removals : List Removal}

theorem Progress.isNative (progress : Progress start removals p) (native : start.graph.IsNative) :
    p.graph.IsNative := by
  intro f there
  obtain ⟨e, member, _, found⟩ := progress.folding.origin f there
  rw [(progress.folding.kept e member f found).2.2.1]
  exact native e member

/-- A round over native statements is carried through, or a request stops it before it judges. -/
theorem round_ends (regular : p.Regular) (native : p.graph.IsNative) (limit countdown : Option Nat) :
    (∃ dead, p.Judges limit dead) ∨
      (p.round limit countdown).ending = .stopped ∧
        (p.round limit countdown).pass = (p.opening limit).pass := by
  cases requested : (p.opening limit).pass.cancelled with
  | false => exact .inl (exists_judges regular native requested)
  | true =>
      have sound := Solver.seed_sound p.graph regular.inOrder.toWellFormed
      have ended : (p.opening limit).outcome.ending = .converged ∨
          (p.opening limit).outcome.ending = .interrupted := sound.run_ends native _ limit
      refine .inr ?_
      unfold opening at requested ended ⊢
      rcases ended with ended | ended <;> simp only [round, ended, requested, if_true, and_self]

theorem iterations_sweep (p : Pass) (countdown : Option Nat) (es : List (Edge Location)) :
    (p.sweep countdown es).pass.iterations = p.iterations := by
  induction es generalizing p countdown with
  | nil => rfl
  | cons e es ih =>
      cases removed : p.remove? e.id with
      | none =>
          simp only [sweep, removed]
          exact ih p countdown
      | some r =>
          obtain ⟨_, _, _, left⟩ := remove?_eq_some_iff.mp removed
          have kept : (r.after countdown).iterations = p.iterations := by
            unfold Removal.after
            split <;> simp [left, cancel]
          simp only [sweep, removed]
          exact (ih (r.after countdown) _).trans kept

theorem iterations_round (p : Pass) (limit countdown : Option Nat) :
    (p.round limit countdown).pass.iterations = p.iterations + 1 := by
  rcases p.round_cases limit countdown with ⟨dead, judges⟩ | ⟨ending, _, same⟩
  · rw [judges.round_eq countdown]
    exact iterations_sweep ..
  · rw [same]
    rfl

/-- What decides about the edges is the same. The live sets may differ, the way liveness is computed
and how many rounds there were, and one may have been told to stop. -/
structure Alike (p q : Pass) : Prop where
  program_eq : q.program = p.program
  threading_eq : q.threading = p.threading
  order_eq : q.order = p.order
  graph_eq : q.graph = p.graph
  removed_eq : q.removed = p.removed

namespace Alike

theorem edges_eq (alike : Alike p q) : q.edges = p.edges := by
  rw [edges, edges, alike.order_eq, alike.graph_eq]

theorem find?_eq (alike : Alike p q) (id : Nat) : q.find? id = p.find? id := by
  rw [find?, find?, alike.order_eq, alike.graph_eq]

theorem after (alike : Alike r.pass s.pass) (countdown otherCountdown : Option Nat) :
    Alike (r.after countdown) (s.after otherCountdown) := by
  obtain ⟨program, threading, order, graph, removed⟩ := alike
  unfold Removal.after
  split <;> split <;> exact ⟨program, threading, order, graph, removed⟩

theorem remove?_eq_none (alike : Alike p q) (kept : p.remove? id = none) : q.remove? id = none := by
  cases found : p.find? id with
  | none => simp only [remove?, alike.find?_eq, found]
  | some e =>
      rw [remove?_eq_none_iff found] at kept
      rwa [remove?_eq_none_iff (e := e) (by rw [alike.find?_eq, found]), alike.graph_eq]

theorem remove?_eq_some (alike : Alike p q) (removed : p.remove? id = some r) :
    ∃ s, q.remove? id = some s ∧ Alike r.pass s.pass := by
  obtain ⟨found, sole, merged, left⟩ := remove?_eq_some_iff.mp removed
  obtain ⟨sameGraph, sameContraction⟩ := LiveGraph.contract_congr p.graph q.live p.live r.edge
  rw [← alike.find?_eq] at found
  rw [← alike.graph_eq] at sole sameGraph sameContraction merged left
  obtain ⟨s, alsoRemoved, sameEdge⟩ := exists_removal found sole
  obtain ⟨_, _, alsoMerged, alsoLeft⟩ := remove?_eq_some_iff.mp alsoRemoved
  rw [sameEdge] at alsoMerged alsoLeft
  have sameMerged : s.merged = r.merged := alsoMerged.trans (sameContraction.trans merged.symm)
  refine ⟨s, alsoRemoved, ?_⟩
  rw [left, alsoLeft, sameMerged]
  exact ⟨alike.program_eq, alike.threading_eq, by rw [alike.order_eq], sameGraph,
    by rw [alike.removed_eq]⟩

theorem sweep (alike : Alike p q) (countdown otherCountdown : Option Nat)
    (es : List (Edge Location)) :
    Alike (p.sweep countdown es).pass (q.sweep otherCountdown es).pass ∧
      (q.sweep otherCountdown es).removals = (p.sweep countdown es).removals := by
  induction es generalizing p q countdown otherCountdown with
  | nil => exact ⟨alike, rfl⟩
  | cons e es ih =>
      cases removed : p.remove? e.id with
      | none =>
          simp only [Pass.sweep, removed, alike.remove?_eq_none removed]
          exact ih alike countdown otherCountdown
      | some r =>
          obtain ⟨s, alsoRemoved, left⟩ := alike.remove?_eq_some removed
          have rest := ih (left.after countdown otherCountdown) (countdown.map (· - 1))
            (otherCountdown.map (· - 1))
          simp only [Pass.sweep, removed, alsoRemoved]
          exact ⟨rest.1, congrArg (· + 1) rest.2⟩

end Alike

theorem deadAmong_congr (same : ∀ e ∈ es, q.isDead e = p.isDead e) :
    q.deadAmong es = p.deadAmong es := by
  induction es with
  | nil => rfl
  | cons e es ih =>
      obtain ⟨first, rest⟩ := List.forall_mem_cons.mp same
      simp only [deadAmong, first, ih rest]

/-- Rounds over the same edges find the same edges dead. -/
theorem Alike.dead_eq (alike : Alike p q) (regular : p.Regular) (regularQ : q.Regular)
    (judges : p.Judges limit dead) (judgesQ : q.Judges otherLimit others) : others = dead := by
  have sameEdges : (q.opening otherLimit).pass.edges = (p.opening limit).pass.edges :=
    alike.edges_eq
  have samePerm : (q.opening otherLimit).pass.graph.edges.Perm
      (p.opening limit).pass.graph.edges := by
    have same : (q.opening otherLimit).pass.graph = (p.opening limit).pass.graph := alike.graph_eq
    rw [same]
  have verdicts : (q.opening otherLimit).pass.deadEdges = (p.opening limit).pass.deadEdges := by
    unfold deadEdges
    rw [sameEdges]
    refine deadAmong_congr fun e listed => ?_
    exact (judges.settled regular).isDead_congr (judgesQ.settled regularQ) alike.program_eq
      alike.threading_eq samePerm (mem_graph_of_mem_edges listed)
  exact Except.ok.inj (judgesQ.verdicts.symm.trans (verdicts.trans judges.verdicts))

theorem Judges.ending_eq (judges : p.Judges limit dead) (countdown : Option Nat) :
    (p.round limit countdown).ending =
      .swept ((p.opening limit).pass.sweep countdown dead).removals := by
  rw [judges.round_eq countdown]

theorem Alike.round (alike : Alike p q) (regular : p.Regular) (regularQ : q.Regular)
    (judges : p.Judges limit dead) (judgesQ : q.Judges otherLimit others)
    (countdown otherCountdown : Option Nat) :
    Alike (p.round limit countdown).pass (q.round otherLimit otherCountdown).pass ∧
      (q.round otherLimit otherCountdown).ending = (p.round limit countdown).ending := by
  have opened : Alike (p.opening limit).pass (q.opening otherLimit).pass := { alike with }
  obtain ⟨left, sameCount⟩ := opened.sweep countdown otherCountdown dead
  rw [judges.round_eq countdown, judgesQ.round_eq otherCountdown,
    alike.dead_eq regular regularQ judges judgesQ]
  exact ⟨left, congrArg RoundEnd.swept sameCount⟩

/-- The state behind so many rounds that nothing interrupts. -/
def afterRounds (p : Pass) : Nat → Pass
  | 0 => p
  | count + 1 => (p.round none none).pass.afterRounds count

/-- Ready for a round that is carried through. -/
structure Able (p : Pass) : Prop where
  regular : p.Regular
  native : p.graph.IsNative
  running : p.cancelled = false

theorem ofEdges_able (program : Program) (threading : Bool) (schedule : Nat → Schedule Location)
    {edges : List (Edge Location)} (identified : Edge.Identified edges)
    (native : ∀ e ∈ edges, e.statement.IsNative) :
    Able { ofEdges program threading edges with schedule } where
  regular := ofEdges_regular program threading schedule identified
  native e member :=
    native e (Edge.mem_of_mem_arrange ((mem_graph_ofEdges program threading identified).mp member))
  running := rfl

theorem Progress.able (progress : Progress start removals p) (able : start.Able)
    (running : p.cancelled = false) : p.Able :=
  ⟨progress.regular able.regular, progress.isNative able.native, running⟩

theorem Able.exists_judges (able : p.Able) : ∃ dead, p.Judges none dead :=
  Pass.exists_judges able.regular able.native (opening_running able.running)

theorem Able.round (able : p.Able) : (p.round none none).pass.Able := by
  obtain ⟨_, progress, _⟩ := p.round_progress none none
  refine progress.able able ?_
  obtain ⟨dead, judges⟩ := able.exists_judges
  obtain ⟨_, _, _, _, left⟩ := sweep_eq (p.opening none).pass dead
  rw [judges.round_eq none]
  dsimp only
  rw [left]
  exact judges.running

/-- A round that is carried through leaves alike edges as one that nothing interrupts leaves them. -/
theorem Alike.round_of_swept {removals : Nat} (alike : Alike p q) (regular : p.Regular)
    (able : q.Able) (swept : (p.round limit countdown).ending = .swept removals) :
    (q.round none none).ending = .swept removals ∧
      Alike (p.round limit countdown).pass (q.round none none).pass := by
  obtain ⟨dead, judges⟩ := exists_judges_of_swept swept
  obtain ⟨others, judgesQ⟩ := able.exists_judges
  obtain ⟨left, sameEnding⟩ := alike.round regular able.regular judges judgesQ countdown none
  exact ⟨sameEnding.trans swept, left⟩

theorem rounds_of_progress {removals : Nat} (running : p.cancelled = false)
    (swept : (p.round (i.limit number) i.afterRemovals).ending = .swept removals)
    (more : removals ≠ 0) :
    let left := { i with afterRemovals := i.afterRemovals.map (· - removals) }
    let rest := (p.round (i.limit number) i.afterRemovals).pass.rounds left (number + 1)
    (p.rounds i number).error = rest.error ∧ (p.rounds i number).pass = rest.pass := by
  fun_cases rounds p i number with
  | case1 cancelled => cases running.symm.trans cancelled
  | case2 _ _ _ ending | case3 _ _ ending => cases ending.symm.trans swept
  | case4 _ _ ending =>
      cases ending.symm.trans swept
      exact absurd rfl more
  | case5 _ _ _ ending =>
      cases ending.symm.trans swept
      exact ⟨rfl, rfl⟩

theorem Able.rounds_last (able : p.Able) (swept : (p.round none none).ending = .swept 0)
    (number : Nat) :
    (p.rounds {} number).error = none ∧ (p.rounds {} number).pass = (p.round none none).pass :=
  rounds_of_swept (i := {}) able.running swept

theorem Able.rounds_next {removals : Nat} (able : p.Able)
    (swept : (p.round none none).ending = .swept removals) (more : removals ≠ 0) (number : Nat) :
    let rest := (p.round none none).pass.rounds {} (number + 1)
    (p.rounds {} number).error = rest.error ∧ (p.rounds {} number).pass = rest.pass :=
  rounds_of_progress (i := {}) able.running swept more

/-- Rounds that nothing interrupts: how many there are, and the state in which each of them starts. -/
structure Completes (p : Pass) (number count : Nat) : Prop where
  error_eq : (p.rounds {} number).error = none
  cancelled_eq : (p.rounds {} number).pass.cancelled = false
  pass_eq : (p.rounds {} number).pass = p.afterRounds count
  iterations_eq : (p.rounds {} number).pass.iterations = p.iterations + count
  comesTo : ∀ k < count, p.ComesTo {} number (p.afterRounds k) none none

theorem Able.completes (able : p.Able) (number : Nat) : ∃ count, p.Completes number count := by
  induction size : p.graph.size using Nat.strongRecOn generalizing p number with
  | ind _ ih =>
      subst size
      obtain ⟨dead, judges⟩ := able.exists_judges
      have swept := judges.ending_eq none
      by_cases done : ((p.opening none).pass.sweep none dead).removals = 0
      · rw [done] at swept
        obtain ⟨fine, last⟩ := able.rounds_last swept number
        refine ⟨1, fine, last ▸ able.round.running, last, ?_, fun k first => ?_⟩
        · rw [last]
          exact iterations_round ..
        · obtain rfl := Nat.lt_one_iff.mp first
          exact .now able.running
      · obtain ⟨count, rest⟩ := ih _ (size_round_lt swept done) able.round (number + 1) rfl
        obtain ⟨fine, left⟩ := able.rounds_next swept done number
        refine ⟨count + 1, fine.trans rest.error_eq, ?_, left.trans rest.pass_eq, ?_, ?_⟩
        · rw [left]
          exact rest.cancelled_eq
        · rw [left]
          refine rest.iterations_eq.trans ?_
          rw [iterations_round]
          omega
        · rintro (_ | k) before
          · exact .now able.running
          · exact .later able.running swept done (rest.comesTo k (Nat.lt_of_succ_lt_succ before))

theorem Able.iterations_le_rounds (able : p.Able) (number : Nat) :
    p.iterations ≤ (p.rounds {} number).pass.iterations := by
  obtain ⟨count, completes⟩ := able.completes number
  rw [completes.iterations_eq]
  exact Nat.le_add_right ..

/-- However rounds are interrupted, they end as some number of rounds that are not leave alike edges.
-/
theorem rounds_truncate (regular : p.Regular) (native : p.graph.IsNative) (i : Interrupts)
    (number : Nat) :
    (p.rounds i number).error = none ∧
      ∀ q other, Alike p q → q.Able →
        ∃ k, q.iterations + k ≤ (q.rounds {} other).pass.iterations ∧
          Alike (p.rounds i number).pass (q.afterRounds k) ∧
          ((p.rounds i number).pass.iterations = p.iterations + k ∨
            (p.rounds i number).pass.iterations = p.iterations + k + 1) := by
  fun_induction rounds p i number with
  | case1 p i number cancelled =>
      exact ⟨rfl, fun q other alike able => ⟨0, able.iterations_le_rounds other, alike, .inl rfl⟩⟩
  | case2 p i number running r error ending =>
      rcases round_ends regular native (i.limit number) i.afterRemovals with ⟨dead, judges⟩ | stopped
      · cases ending.symm.trans (judges.ending_eq _)
      · cases ending.symm.trans stopped.1
  | case3 p i number running r ending =>
      rcases round_ends regular native (i.limit number) i.afterRemovals with ⟨dead, judges⟩ | stopped
      · cases ending.symm.trans (judges.ending_eq _)
      · refine ⟨rfl, fun q other alike able => ?_⟩
        refine ⟨0, able.iterations_le_rounds other, ?_, .inr (iterations_round ..)⟩
        show Alike (p.round (i.limit number) i.afterRemovals).pass q
        rw [stopped.2]
        exact { alike with }
  | case4 p i number running r ending =>
      refine ⟨rfl, fun q other alike able => ?_⟩
      obtain ⟨swept, left⟩ := alike.round_of_swept regular able ending
      obtain ⟨_, last⟩ := able.rounds_last swept other
      refine ⟨1, ?_, left, .inl (iterations_round ..)⟩
      rw [last]
      exact Nat.le_of_eq (iterations_round q none none).symm
  | case5 p i number running r removals ending more left rest ih =>
      obtain ⟨_, progress, _⟩ := p.round_progress (i.limit number) i.afterRemovals
      obtain ⟨fine, truncates⟩ := ih (progress.regular regular) (progress.isNative native)
      refine ⟨fine, fun q other alike able => ?_⟩
      obtain ⟨swept, after⟩ := alike.round_of_swept regular able ending
      obtain ⟨_, last⟩ := able.rounds_next swept more other
      obtain ⟨k, bound, alikeRest, counted⟩ := truncates _ (other + 1) after able.round
      have first : r.pass.iterations = p.iterations + 1 := iterations_round ..
      rw [iterations_round, Nat.add_assoc, Nat.add_comm 1 k] at bound
      refine ⟨k + 1, last ▸ bound, alikeRest, ?_⟩
      exact counted.imp (fun total => total.trans (by omega)) fun total => total.trans (by omega)

/-- Requests to stop truncate an elimination between two rounds. Uninterrupted, it goes through so many
rounds, one behind the other. Stopped, be it before the run, while a round computes liveness or in the
midst of its removals, it ends with the edges, the graph and the count of removals that are there behind
some of these rounds; a round that it may have begun beyond them counts only as a round. It ends
cancelled exactly if it was told to stop before the run or the run got as far as to be told; from then
on nothing changes it. How liveness is computed does not matter to any of this. -/
theorem stopped_run_truncates (program : Program) (threading : Bool)
    (schedule other : Nat → Schedule Location) {edges : List (Edge Location)}
    (identified : Edge.Identified edges) (native : ∀ e ∈ edges, e.statement.IsNative) :
    let start := { ofEdges program threading edges with schedule }
    let whole := { ofEdges program threading edges with schedule := other }
    let complete := (whole.run {}).pass
    ((whole.run {}).error = none ∧ complete.cancelled = false ∧
      complete = whole.afterRounds complete.iterations ∧
      ∀ k < complete.iterations, whole.ComesTo {} 1 (whole.afterRounds k) none none) ∧
    ∀ p ∈ [start, start.interrupt.pass], ∀ i,
      let result := (p.run i).pass
      (p.run i).error = none ∧
      (∃ k ≤ complete.iterations,
        result.edges = (whole.afterRounds k).edges ∧ result.graph = (whole.afterRounds k).graph ∧
        result.removed = (whole.afterRounds k).removed ∧
        (result.iterations = k ∨ result.iterations = k + 1)) ∧
      (.cancelRequested ∈ (p.run i).events ↔ p.TakesEffect i) ∧
      (result.cancelled = true ↔ p = start.interrupt.pass ∨ p.TakesEffect i) ∧
      (p = start.interrupt.pass ∨ p.TakesEffect i →
        ∀ later, Reached result later → later = result) := by
  intro start whole complete
  have able : whole.Able := ofEdges_able program threading other identified native
  obtain ⟨count, completes⟩ := able.completes 1
  have counted : complete.iterations = count := completes.iterations_eq.trans (Nat.zero_add _)
  rw [counted]
  refine ⟨⟨completes.error_eq, completes.cancelled_eq, completes.pass_eq, completes.comesTo⟩, ?_⟩
  intro p chosen i result
  have regular := ofEdges_regular program threading schedule identified
  obtain ⟨regularP, alike, fresh⟩ : p.Regular ∧ Alike p whole ∧ p.iterations = 0 := by
    rcases List.mem_pair.mp chosen with rfl | rfl
    · exact ⟨regular, ⟨rfl, rfl, rfl, rfl, rfl⟩, rfl⟩
    · exact ⟨{ regular with }, ⟨rfl, rfl, rfl, rfl, rfl⟩, rfl⟩
  have told : p.cancelled = true ↔ p = start.interrupt.pass := by
    rcases List.mem_pair.mp chosen with rfl | rfl
    · exact iff_of_false Bool.false_ne_true fun same => Bool.false_ne_true (congrArg cancelled same)
    · exact iff_of_true rfl rfl
  obtain ⟨fine, truncates⟩ := rounds_truncate regularP (alike.graph_eq ▸ able.native) i 1
  obtain ⟨k, bound, left, iterations⟩ := truncates whole 1 alike able
  rw [fresh, Nat.zero_add] at iterations
  have heeds := p.run_heeds i
  have stopped : result.cancelled = true ↔ p = start.interrupt.pass ∨ p.TakesEffect i :=
    heeds.cancelled.trans (or_congr_left told)
  refine ⟨fine, ⟨k, ?_, left.edges_eq.symm, left.graph_eq.symm, left.removed_eq.symm, iterations⟩,
    heeds.reported, stopped, ?_⟩
  · rw [← counted]
    exact Nat.le_trans (Nat.le_add_left ..) bound
  · exact fun requested later reached => reached.eq_of_cancelled (stopped.mpr requested)

/-- Two registers that are overwritten. The first assignment is dead only once the second is gone. -/
def deadChain : List (Edge Location) :=
  [⟨0, ⟨0x1000, 0⟩, ⟨0x1001, 0⟩, .assign "ecx" (.var "eax")⟩,
   ⟨1, ⟨0x1001, 0⟩, ⟨0x1002, 0⟩, .assign "ebx" (.var "ecx")⟩,
   ⟨2, ⟨0x1002, 0⟩, ⟨0x1003, 0⟩, .assign "ebx" (.var "eax")⟩,
   ⟨3, ⟨0x1003, 0⟩, ⟨0x1004, 0⟩, .assign "ecx" (.var "eax")⟩]

/-- Stopped while its second round computes liveness, an elimination of the chain ends behind the first
of its three rounds. Told to stop before, it ends cancelled as well. -/
theorem deadChain_truncated :
    let start := ofEdges { architecture := .x86 } false deadChain
    let stopped := start.run { inRound := some (2, 1) }
    Edge.Identified deadChain ∧ (∀ e ∈ deadChain, e.statement.IsNative) ∧
      (start.run {}).pass.iterations = 3 ∧ (start.run {}).pass.removed = 2 ∧
      stopped.pass.cancelled = true ∧ stopped.pass.iterations = 2 ∧ stopped.pass.removed = 1 ∧
      (∃ k ≤ (start.run {}).pass.iterations, stopped.pass.edges = (start.afterRounds k).edges) ∧
      start.TakesEffect { inRound := some (2, 1) } ∧ .cancelRequested ∈ stopped.events ∧
      (∀ later, Reached stopped.pass later → later = stopped.pass) ∧
      (start.interrupt.pass.run {}).pass.cancelled = true := by
  intro start stopped
  have identified : Edge.Identified deadChain := by decide +kernel
  have native : ∀ e ∈ deadChain, e.statement.IsNative := by decide +kernel
  have counts : (start.run {}).pass.iterations = 3 ∧ (start.run {}).pass.removed = 2 ∧
      .cancelRequested ∈ stopped.events ∧ stopped.pass.iterations = 2 ∧ stopped.pass.removed = 1 := by
    decide +kernel
  obtain ⟨whole, removed, reported, iterations, removedThen⟩ := counts
  have truncates := (stopped_run_truncates { architecture := .x86 } false (fun _ => .smallest)
    (fun _ => .smallest) identified native).2
  obtain ⟨_, ⟨k, bound, edges, _⟩, requested, cancelled, final⟩ :=
    truncates start List.mem_cons_self { inRound := some (2, 1) }
  obtain ⟨_, _, _, before, _⟩ :=
    truncates start.interrupt.pass (List.mem_cons_of_mem _ List.mem_cons_self) {}
  have effect := requested.mp reported
  exact ⟨identified, native, whole, removed, cancelled.mpr (.inr effect), iterations, removedThen,
    ⟨k, bound, edges⟩, effect, reported, final (.inr effect), before.mpr (.inl rfl)⟩

end Pass

end Deadwood
