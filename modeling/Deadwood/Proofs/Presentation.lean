import Deadwood.Proofs.Exits
import Deadwood.Proofs.Likeness
import Deadwood.Proofs.Truncation

namespace Deadwood.Pass

/-!
Two eliminations over edges that look the same. The ids of the edges and the order they came in may be
others, and liveness may be computed in another way. Edges that a listing does not tell apart leave one
location with different statements, and such edges are never removed; of all others both eliminations
remove the same ones in the same order. Main statement: what is left looks the same.
-/

variable {p q start : Pass} {id other : Nat} {limit countdown : Option Nat}
  {dead others es fs : List (Edge Location)} {e : Edge Location} {r s : Removal}
  {removals : List Removal}

/-- The edges look the same, and whatever else decides about them is the same. -/
structure Mirrors (p q : Pass) : Prop where
  regular : p.Regular
  regular_right : q.Regular
  program_eq : q.program = p.program
  threading_eq : q.threading = p.threading
  same : Edge.SameParts p.graph.edges q.graph.edges

namespace Mirrors

theorem symm (mirrors : Mirrors p q) : Mirrors q p where
  regular := mirrors.regular_right
  regular_right := mirrors.regular
  program_eq := mirrors.program_eq.symm
  threading_eq := mirrors.threading_eq.symm
  same := mirrors.same.symm

theorem like (mirrors : Mirrors p q) : p.graph.Like q.graph :=
  ⟨mirrors.same, mirrors.regular.distinct, mirrors.regular_right.distinct⟩

theorem opening (mirrors : Mirrors p q) : Mirrors (p.opening none).pass (q.opening none).pass where
  regular := mirrors.regular.opening none
  regular_right := mirrors.regular_right.opening none
  program_eq := mirrors.program_eq
  threading_eq := mirrors.threading_eq
  same := mirrors.same

/-- Removals of edges that look the same leave edges that look the same, and what matched before matches
afterwards. -/
theorem of_removals (mirrors : Mirrors p q) (removed : p.remove? id = some r)
    (removedQ : q.remove? other = some s) (like : r.edge.parts = s.edge.parts) :
    Mirrors r.pass s.pass ∧
      ∀ i j, p.graph.Matches q.graph i j → r.pass.graph.Matches s.pass.graph i j := by
  have regular := mirrors.regular.remove removed
  have regularQ := mirrors.regular_right.remove removedQ
  obtain ⟨found, sole, _, left⟩ := remove?_eq_some_iff.mp removed
  obtain ⟨foundQ, _, _, leftQ⟩ := remove?_eq_some_iff.mp removedQ
  have member := (find?_eq_some_iff.mp found).2.1
  have memberQ := (find?_eq_some_iff.mp foundQ).2.1
  rw [left] at regular ⊢
  rw [leftQ] at regularQ ⊢
  have after := mirrors.like.contract (s := ⟨p.graph, p.live⟩) (t := ⟨q.graph, q.live⟩)
    member sole memberQ like
  refine ⟨⟨regular, regularQ, mirrors.program_eq, mirrors.threading_eq, after.same⟩, fun i j => ?_⟩
  exact mirrors.like.matches_contract (s := ⟨p.graph, p.live⟩) (t := ⟨q.graph, q.live⟩)
    member sole memberQ like

/-- Ids that match are removed together or not at all. -/
theorem remove? (mirrors : Mirrors p q) (matching : p.graph.Matches q.graph id other) :
    (p.remove? id = none ∧ q.remove? other = none) ∨
      ∃ r s, p.remove? id = some r ∧ q.remove? other = some s ∧ r.edge.parts = s.edge.parts := by
  rw [Graph.Matches, ← mirrors.regular.listed.find?_eq, ← mirrors.regular_right.listed.find?_eq]
    at matching
  cases found : p.find? id with
  | none =>
      rw [found, Option.map_none, eq_comm, Option.map_eq_none_iff] at matching
      exact .inl ⟨by simp only [Pass.remove?, found], by simp only [Pass.remove?, matching]⟩
  | some e =>
      rw [found, Option.map_some, eq_comm] at matching
      obtain ⟨f, foundQ, like⟩ := Option.map_eq_some_iff.mp matching
      have degrees : p.graph.outDegree e.source = q.graph.outDegree f.source := by
        rw [mirrors.like.outDegree_eq, (Edge.parts_eq_iff.mp like).1]
      by_cases sole : p.graph.outDegree e.source ≤ 1
      · obtain ⟨r, removed, rfl⟩ := exists_removal found sole
        obtain ⟨s, removedQ, rfl⟩ := exists_removal foundQ (degrees ▸ sole)
        exact .inr ⟨r, s, removed, removedQ, like.symm⟩
      · rw [remove?_eq_none_iff found, remove?_eq_none_iff foundQ]
        omega

theorem sweep (mirrors : Mirrors p q)
    (matched : es.Forall₂ (fun e f => p.graph.Matches q.graph e.id f.id) fs) :
    Mirrors (p.sweep none es).pass (q.sweep none fs).pass ∧
      (p.sweep none es).removals = (q.sweep none fs).removals := by
  induction es generalizing p q fs with
  | nil =>
      cases matched
      exact ⟨mirrors, rfl⟩
  | cons e es ih =>
      obtain ⟨f, fs, matching, rest, rfl⟩ := List.forall₂_cons_left_iff.mp matched
      rcases mirrors.remove? matching with ⟨kept, keptQ⟩ | ⟨r, s, removed, removedQ, like⟩
      · simp only [Pass.sweep, kept, keptQ]
        exact ih mirrors rest
      · obtain ⟨after, still⟩ := mirrors.of_removals removed removedQ like
        have later := ih after (rest.imp fun (e f : Edge Location) => still e.id f.id)
        simp only [Pass.sweep, removed, removedQ, reduceCtorEq, if_false, Option.map_none]
        exact ⟨later.1, congrArg (· + 1) later.2⟩

end Mirrors

/-- An edge whose source has ways out with other statements is never removed. -/
theorem Progress.remove?_eq_none (progress : Progress start removals p)
    (member : e ∈ start.graph.edges) (branching : start.graph.isPlain e = false) :
    p.remove? e.id = none := by
  obtain ⟨f, listed, sibling, different⟩ := Graph.isPlain_eq_false_iff.mp branching
  cases removed : p.remove? e.id with
  | none => rfl
  | some r =>
      obtain ⟨there, sameId, sole, _⟩ := contracted_of_remove? removed
      obtain ⟨d, listedD, sameD, heirE⟩ := progress.folding.origin r.edge there
      rw [start.graph.eq_of_id_eq listedD member (sameD.trans sameId)] at heirE
      obtain ⟨_, source, statement, _⟩ := progress.folding.kept e member r.edge heirE
      -- What stands for the sibling leaves the source as well, or nothing leaves it any more.
      cases heirF : heir removals f with
      | none =>
          have exit := (progress.folding.folded f listed heirF).2.1
          exact absurd (source.trans sibling.symm) (exit r.edge there)
      | some g =>
          obtain ⟨thereG, sourceG, statementG, _⟩ := progress.folding.kept f listed g heirF
          have itself : g = r.edge := Graph.eq_of_sole there sole thereG
            (sourceG.trans (sibling.trans source.symm))
          exact absurd (statementG.symm.trans (itself ▸ statement)) different

theorem sweep_filter {keep : Edge Location → Bool}
    (stuck : ∀ removals q, Progress p removals q → ∀ e ∈ es, keep e = false →
      q.remove? e.id = none) :
    p.sweep countdown es = p.sweep countdown (es.filter keep) := by
  induction es generalizing p countdown with
  | nil => rfl
  | cons e es ih =>
      cases removed : p.remove? e.id with
      | none =>
          have rest : p.sweep countdown es = p.sweep countdown (es.filter keep) :=
            ih fun removals q progress f later =>
              stuck removals q progress f (List.mem_cons_of_mem _ later)
          cases kept : keep e with
          | true =>
              rw [List.filter_cons_of_pos kept]
              simp only [sweep, removed, rest]
          | false =>
              rw [List.filter_cons_of_neg (by simp [kept])]
              simp only [sweep, removed, rest]
      | some r =>
          have kept : keep e = true := by
            rw [← Bool.not_eq_false]
            intro dropped
            cases removed.symm.trans (stuck [] p .start e List.mem_cons_self dropped)
          have rest : (r.after countdown).sweep (countdown.map (· - 1)) es =
              (r.after countdown).sweep (countdown.map (· - 1)) (es.filter keep) :=
            ih fun removals q progress f later => stuck _ q
              ((Removal.after_progress removed countdown).trans progress) f
              (List.mem_cons_of_mem _ later)
          rw [List.filter_cons_of_pos kept]
          unfold Removal.after at rest
          simp only [sweep, removed, rest]

/-- What holds of any part of a listing. -/
theorem Regular.of_sublist (regular : p.Regular) (within : es.Sublist p.edges) :
    (∀ e ∈ es, e ∈ p.graph.edges) ∧ es.Nodup ∧ Edge.Distinct es ∧
      es.Pairwise fun e f => e.keyLe f = true := by
  have inside : ∀ e ∈ es, e ∈ p.graph.edges := fun e listed =>
    mem_graph_of_mem_edges (within.subset listed)
  have nodup : p.edges.Nodup := regular.edges_perm.nodup_iff.mpr p.graph.nodup_edges
  exact ⟨inside, within.nodup nodup,
    fun e left f right => regular.distinct e (inside e left) f (inside f right),
    (Edge.sort_keyLe_pairwise _).sublist within⟩

theorem Judges.sweep_eq (judges : p.Judges limit dead) (countdown : Option Nat) :
    (p.opening limit).pass.sweep countdown dead =
      (p.opening limit).pass.sweep countdown (dead.filter p.graph.isPlain) := by
  refine sweep_filter fun removals q progress e among branching => ?_
  obtain ⟨listed, _⟩ := (mem_deadAmong judges.verdicts).mp among
  exact progress.remove?_eq_none (mem_graph_of_mem_edges listed) branching

namespace Mirrors

/-- The like of a plain edge that is dead is dead and plain. -/
theorem exists_like_dead (mirrors : Mirrors p q) (judges : p.Judges none dead)
    (judgesQ : q.Judges none others) (among : e ∈ dead.filter p.graph.isPlain) :
    ∃ f ∈ others.filter q.graph.isPlain, e.parts = f.parts := by
  obtain ⟨inDead, plain⟩ := List.mem_filter.mp among
  obtain ⟨listed, verdict⟩ := (mem_deadAmong judges.verdicts).mp inDead
  have member := mem_graph_of_mem_edges listed
  obtain ⟨f, inside, like⟩ := mirrors.same.exists_like member
  have verdictF : (q.opening none).pass.isDead f = .ok true := by
    rw [← verdict]
    exact (judges.settled mirrors.regular).isDead_copy (judgesQ.settled mirrors.regular_right)
      mirrors.program_eq mirrors.threading_eq mirrors.same.symm.haveCopies mirrors.same.haveCopies
      (fun l => (mirrors.like.outDegree_eq l).symm) (Edge.isCopy_iff_parts.mpr like) member inside
  have listedF := (mem_edges mirrors.opening.regular_right.listed).mpr inside
  refine ⟨f, List.mem_filter.mpr ⟨?_, mirrors.like.isPlain_congr like plain⟩, like⟩
  exact (mem_deadAmong judgesQ.verdicts).mpr ⟨listedF, verdictF⟩

theorem forall₂_dead (mirrors : Mirrors p q) (judges : p.Judges none dead)
    (judgesQ : q.Judges none others) :
    (dead.filter p.graph.isPlain).Forall₂ (fun e f => p.graph.Matches q.graph e.id f.id)
      (others.filter q.graph.isPlain) := by
  have within : (dead.filter p.graph.isPlain).Sublist (p.opening none).pass.edges :=
    List.filter_sublist.trans (deadAmong_sublist judges.verdicts)
  have withinQ : (others.filter q.graph.isPlain).Sublist (q.opening none).pass.edges :=
    List.filter_sublist.trans (deadAmong_sublist judgesQ.verdicts)
  have same : Edge.SameParts (dead.filter p.graph.isPlain) (others.filter q.graph.isPlain) :=
    .of_exists_like (fun _ => mirrors.exists_like_dead judges judgesQ)
      fun _ => mirrors.symm.exists_like_dead judgesQ judges
  obtain ⟨inside, nodup, distinct, sorted⟩ := mirrors.opening.regular.of_sublist within
  obtain ⟨insideQ, nodupQ, distinctQ, sortedQ⟩ := mirrors.opening.regular_right.of_sublist withinQ
  exact mirrors.like.forall₂_matches (fun e among => ⟨inside e among, (List.mem_filter.mp among).2⟩)
    insideQ sorted sortedQ (same.perm nodup nodupQ distinct distinctQ)

theorem round (mirrors : Mirrors p q) (able : p.Able) (ableQ : q.Able) :
    Mirrors (p.round none none).pass (q.round none none).pass ∧
      (p.round none none).ending = (q.round none none).ending := by
  obtain ⟨dead, judges⟩ := able.exists_judges
  obtain ⟨others, judgesQ⟩ := ableQ.exists_judges
  obtain ⟨left, sameCount⟩ := mirrors.opening.sweep (mirrors.forall₂_dead judges judgesQ)
  rw [← judges.sweep_eq, ← judgesQ.sweep_eq] at left sameCount
  rw [judges.round_eq none, judgesQ.round_eq none]
  exact ⟨left, congrArg RoundEnd.swept sameCount⟩

/-- Rounds that nothing interrupts keep step with each other. -/
theorem rounds (mirrors : Mirrors p q) (able : p.Able) (ableQ : q.Able) (number other : Nat) :
    Mirrors (p.rounds {} number).pass (q.rounds {} other).pass ∧
      (p.rounds {} number).pass.iterations + q.iterations =
        (q.rounds {} other).pass.iterations + p.iterations := by
  induction size : p.graph.size using Nat.strongRecOn generalizing p q number other with
  | ind _ ih =>
      subst size
      obtain ⟨after, sameEnding⟩ := mirrors.round able ableQ
      obtain ⟨dead, judges⟩ := able.exists_judges
      have swept := judges.ending_eq none
      have counted := iterations_round p none none
      have countedQ := iterations_round q none none
      by_cases done : ((p.opening none).pass.sweep none dead).removals = 0
      · rw [done] at swept
        rw [(able.rounds_last swept number).2,
          (ableQ.rounds_last (sameEnding.symm.trans swept) other).2]
        exact ⟨after, by omega⟩
      · rw [(able.rounds_next swept done number).2,
          (ableQ.rounds_next (sameEnding.symm.trans swept) done other).2]
        obtain ⟨ended, total⟩ := ih _ (size_round_lt swept done) after able.round ableQ.round
          (number + 1) (other + 1) rfl
        exact ⟨ended, by omega⟩

theorem edges_perm (mirrors : Mirrors p q) :
    (p.edges.map Edge.parts).Perm (q.edges.map Edge.parts) :=
  ((mirrors.regular.edges_perm.map _).trans mirrors.like.perm).trans
    (mirrors.regular_right.edges_perm.map _).symm

theorem liveNames_eq (mirrors : Mirrors p q) (normal : p.Normal) (normalQ : q.Normal)
    (l : Location) : p.liveNames l = q.liveNames l := by
  have same : Edge.SameParts p.edges q.edges := fun t => mirrors.edges_perm.mem_iff
  have computed := normal.isLiveness.of_copies same.haveCopies same.symm.haveCopies
  rw [← mirrors.program_eq] at computed
  exact computed.names_eq normalQ.isLiveness l

end Mirrors

/-- The result of an elimination does not depend on how the edges are presented: neither on their order,
nor on copies among them, nor on their ids, nor on the way in which liveness is computed. Left alone,
eliminations over edges that look the same end, and what is left looks the same, is listed by the same
keys in the same order, and has the same live sets; and they have counted the same removals and rounds.
-/
theorem run_ignores_presentation (program : Program) (threading : Bool)
    (schedule otherSchedule : Nat → Schedule Location) {edges others : List (Edge Location)}
    (identified : Edge.Identified edges) (identifiedOthers : Edge.Identified others)
    (native : ∀ e ∈ edges, e.statement.IsNative) (same : Edge.SameParts edges others) :
    let left := { ofEdges program threading edges with schedule }.run {}
    let right := { ofEdges program threading others with schedule := otherSchedule }.run {}
    left.error = none ∧ right.error = none ∧
      (left.pass.edges.map Edge.parts).Perm (right.pass.edges.map Edge.parts) ∧
      left.pass.edges.map Edge.key = right.pass.edges.map Edge.key ∧
      left.pass.removed = right.pass.removed ∧ left.pass.iterations = right.pass.iterations ∧
      ∀ l, left.pass.liveNames l = right.pass.liveNames l := by
  intro left right
  let start := { ofEdges program threading edges with schedule }
  let other := { ofEdges program threading others with schedule := otherSchedule }
  have nativeOthers : ∀ f ∈ others, f.statement.IsNative := by
    intro f listed
    obtain ⟨e, member, like⟩ := same.symm.exists_like listed
    exact (Edge.parts_eq_iff.mp like).2.2 ▸ native e member
  have able : start.Able := ofEdges_able program threading schedule identified native
  have ableOther : other.Able :=
    ofEdges_able program threading otherSchedule identifiedOthers nativeOthers
  obtain ⟨there, back⟩ := haveCopies_ofEdges program threading identified
  obtain ⟨thereOthers, backOthers⟩ := haveCopies_ofEdges program threading identifiedOthers
  have mirrors : Mirrors start other :=
    ⟨able.regular, ableOther.regular, rfl, rfl,
      ((Edge.SameParts.of_haveCopies back there).trans same).trans
        (.of_haveCopies thereOthers backOthers)⟩
  obtain ⟨_, completes⟩ := able.completes 1
  obtain ⟨_, completesOther⟩ := ableOther.completes 1
  obtain ⟨ended, iterations⟩ : Mirrors left.pass right.pass ∧ _ := mirrors.rounds able ableOther 1 1
  refine ⟨completes.error_eq, completesOther.error_eq, ended.edges_perm, ?_, ?_, iterations, ?_⟩
  · exact Edge.map_key_eq (Edge.sort_keyLe_pairwise _) (Edge.sort_keyLe_pairwise _) ended.edges_perm
  · obtain ⟨_, progress, _⟩ := start.run_progress {}
    obtain ⟨_, progressOther, _⟩ := other.run_progress {}
    have sizes : start.graph.size = other.graph.size := mirrors.like.size_eq
    have sizesLeft : left.pass.graph.size = right.pass.graph.size := ended.like.size_eq
    have counted : left.pass.graph.size + left.pass.removed = start.graph.size :=
      progress.size_add_removed
    have countedOther : right.pass.graph.size + right.pass.removed = other.graph.size :=
      progressOther.size_add_removed
    omega
  · exact ended.liveNames_eq (run_normal able.regular completes.error_eq completes.cancelled_eq)
      (run_normal ableOther.regular completesOther.error_eq completesOther.cancelled_eq)

/-- Two calls that a listing does not tell apart, and a skip behind them. -/
def tiedCalls : List (Edge Location) :=
  [⟨0, ⟨0x1000, 0⟩, ⟨0x1001, 0⟩, .call (.ofList ["eax"])⟩,
   ⟨1, ⟨0x1000, 0⟩, ⟨0x1001, 0⟩, .call (.ofList ["ecx"])⟩,
   ⟨2, ⟨0x1001, 0⟩, ⟨0x1002, 0⟩, .skip⟩]

/-- The same edges, the other way round and with a copy. -/
def tiedCallsAgain : List (Edge Location) :=
  [⟨7, ⟨0x1001, 0⟩, ⟨0x1002, 0⟩, .skip⟩,
   ⟨5, ⟨0x1000, 0⟩, ⟨0x1001, 0⟩, .call (.ofList ["ecx"])⟩,
   ⟨8, ⟨0x1001, 0⟩, ⟨0x1002, 0⟩, .skip⟩,
   ⟨6, ⟨0x1000, 0⟩, ⟨0x1001, 0⟩, .call (.ofList ["eax"])⟩]

theorem tiedCalls_ignore_presentation :
    let start := ofEdges { architecture := .x86 } false tiedCalls
    let other := { ofEdges { architecture := .x86 } false tiedCallsAgain with
      schedule := fun _ => .largest }
    Edge.Identified tiedCalls ∧ Edge.Identified tiedCallsAgain ∧
      (∀ e ∈ tiedCalls, e.statement.IsNative) ∧ Edge.SameParts tiedCalls tiedCallsAgain ∧
      (start.run {}).pass.edges.map Edge.id = [0, 1] ∧
      (other.run {}).pass.edges.map Edge.id = [5, 6] ∧
      (start.run {}).pass.removed = 1 ∧ (other.run {}).pass.removed = 1 ∧
      ((start.run {}).pass.edges.map Edge.parts).Perm ((other.run {}).pass.edges.map Edge.parts) ∧
      ∀ l, (start.run {}).pass.liveNames l = (other.run {}).pass.liveNames l := by
  intro start other
  have identified : Edge.Identified tiedCalls ∧ Edge.Identified tiedCallsAgain := by decide +kernel
  have native : ∀ e ∈ tiedCalls, e.statement.IsNative := by decide +kernel
  have same : Edge.SameParts tiedCalls tiedCallsAgain :=
    .of_exists_like (by decide +kernel) (by decide +kernel)
  have ids : (start.run {}).pass.edges.map Edge.id = [0, 1] ∧
      (other.run {}).pass.edges.map Edge.id = [5, 6] ∧ (start.run {}).pass.removed = 1 := by
    decide +kernel
  obtain ⟨_, _, parts, _, removed, _, live⟩ := run_ignores_presentation { architecture := .x86 } false
    (fun _ => .smallest) (fun _ => .largest) identified.1 identified.2 native same
  exact ⟨identified.1, identified.2, native, same, ids.1, ids.2.1, ids.2.2, removed.symm.trans ids.2.2,
    parts, live⟩

end Deadwood.Pass
