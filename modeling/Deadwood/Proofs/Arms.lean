import Deadwood.Proofs.Verdicts

namespace Deadwood

/-!
The ways out of a location, by the statements they carry. A removal takes away the only way out of
its source, and a merged edge leaves behind a copy with the same source. Main statement: a location
from which ways with different statements lead keeps all of these statements, and so does one whose
only statement is of a kind that is never removed.
-/

variable {ν : Type} {input edges : List (Edge ν)} {threading : Bool} {n : ν} {s : Statement}

/-- A way out of the node carries the statement. -/
def HasArm (edges : List (Edge ν)) (n : ν) (s : Statement) : Prop :=
  ∃ e ∈ edges, e.source = n ∧ e.statement = s

/-- Whether edges with the statement can be removed at all. Stores, calls and halts have an effect of
their own, and so has a jump unless it is an ordinary one and jumps are threaded. -/
def Statement.isRemovable (threading : Bool) : Statement → Bool
  | .assign _ _ | .skip => true
  | .assume _ kind => threading && kind = .ordinary
  | .store _ _ | .halt | .call _ | .foreign _ => false

namespace Graph

variable [DecidableEq ν] {g : Graph ν} {d e : Edge ν} {es : List (Edge ν)} {target : ν}

theorem hasArm_erase (member : d ∈ g.edges) (sole : g.outDegree d.source ≤ 1) :
    HasArm (g.erase d.id).edges n s ↔ HasArm g.edges n s ∧ n ≠ d.source := by
  constructor
  · rintro ⟨e, kept, rfl, rfl⟩
    obtain ⟨listed, apart⟩ := mem_edges_erase.mp kept
    refine ⟨⟨e, listed, rfl, rfl⟩, fun leaves => apart ?_⟩
    exact congrArg Edge.id (eq_of_sole member sole listed leaves)
  · rintro ⟨⟨e, listed, rfl, rfl⟩, apart⟩
    refine ⟨e, mem_edges_erase.mpr ⟨listed, fun same => apart ?_⟩, rfl, rfl⟩
    rw [g.eq_of_id_eq listed member same]

/-- Neither a new target nor a merge takes a statement from the source. -/
theorem hasArm_moveOrMerge (member : e ∈ g.edges) :
    HasArm (g.moveOrMerge target e).1.edges n s ↔ HasArm g.edges n s := by
  rcases moveOrMerge_cases member target with
    ⟨⟨f, listed, apart, copy⟩, _, edgesIff⟩ | ⟨_, edgesIff⟩
  · obtain ⟨source, _, statement⟩ := Edge.isCopy_iff.mp copy
    constructor
    · rintro ⟨c, kept, leaves, carries⟩
      exact ⟨c, ((edgesIff c).mp kept).1, leaves, carries⟩
    · rintro ⟨c, old, rfl, rfl⟩
      by_cases same : c.id = e.id
      · rw [g.eq_of_id_eq old member same]
        exact ⟨f, (edgesIff f).mpr ⟨listed, apart⟩, source.symm, statement.symm⟩
      · exact ⟨c, (edgesIff c).mpr ⟨old, same⟩, rfl, rfl⟩
  · constructor
    · rintro ⟨c, kept, rfl, rfl⟩
      rcases (edgesIff c).mp kept with rfl | ⟨old, _⟩
      · exact ⟨e, member, rfl, rfl⟩
      · exact ⟨c, old, rfl, rfl⟩
    · rintro ⟨c, old, rfl, rfl⟩
      by_cases same : c.id = e.id
      · rw [g.eq_of_id_eq old member same]
        exact ⟨{ e with target }, (edgesIff _).mpr (.inl rfl), rfl, rfl⟩
      · exact ⟨c, (edgesIff c).mpr (.inr ⟨old, same⟩), rfl, rfl⟩

theorem hasArm_moveAll (listed : ∀ e ∈ es, e ∈ g.edges) (distinct : (es.map Edge.id).Nodup) :
    HasArm (g.moveAll target es).1.edges n s ↔ HasArm g.edges n s :=
  moveAll_keeps (P := fun h => HasArm h.edges n s ↔ HasArm g.edges n s)
    (fun _ _ member same => (hasArm_moveOrMerge member).trans same) listed distinct Iff.rfl

/-- The graph in the course of a contraction, when some of the edges that led to the source have been
sent on. -/
def midway (g : Graph ν) (d : Edge ν) (sent : List (Edge ν)) : Graph ν :=
  ((g.erase d.id).moveAll d.target sent).1

theorem hasArm_midway (member : d ∈ g.edges) (sole : g.outDegree d.source ≤ 1)
    {sent later : List (Edge ν)} (parts : (g.erase d.id).incoming d.source = sent ++ later) :
    HasArm (g.midway d sent).edges n s ↔ HasArm g.edges n s ∧ n ≠ d.source := by
  have within : sent.Sublist ((g.erase d.id).incoming d.source) := parts ▸ List.sublist_append_left ..
  have listed : ∀ e ∈ sent, e ∈ (g.erase d.id).edges := fun e found =>
    mem_edges_of_incoming e (within.subset found)
  have distinct := (within.map Edge.id).nodup (incoming_ids_nodup ..)
  rw [midway, hasArm_moveAll listed distinct, hasArm_erase member sole]

end Graph

theorem LiveGraph.edges_contract [DecidableEq ν] (s : LiveGraph ν) (d : Edge ν) :
    (s.contract d).1.graph.edges =
      (s.graph.midway d ((s.graph.erase d.id).incoming d.source)).edges := by
  simp only [contract, edges_forget]
  rfl

/-- At every node the ways out carry what they carried at first, or else they all carried one
statement, which can be removed, and are gone. -/
def ArmsLeft (threading : Bool) (input edges : List (Edge ν)) : Prop :=
  ∀ n, (∀ s, HasArm edges n s ↔ HasArm input n s) ∨
    ∃ s, s.isRemovable threading = true ∧ (∀ t, HasArm input n t ↔ t = s) ∧ ∀ t, ¬ HasArm edges n t

/-- What is promised of the ways out of a node, given those there were at first. -/
structure KeepsArms (threading : Bool) (input edges : List (Edge ν)) : Prop where
  branches : ∀ n s t, HasArm input n s → HasArm input n t → s ≠ t →
    ∀ u, HasArm edges n u ↔ HasArm input n u
  effects : ∀ n s, (∀ t, HasArm input n t ↔ t = s) → s.isRemovable threading = false →
    ∀ t, HasArm edges n t ↔ t = s

theorem ArmsLeft.keepsArms (left : ArmsLeft threading input edges) :
    KeepsArms threading input edges where
  branches n s t first second different := by
    rcases left n with same | ⟨u, _, only, _⟩
    · exact same
    · exact absurd (((only s).mp first).trans ((only t).mp second).symm) different
  effects n s only lasting t := by
    rcases left n with same | ⟨u, removable, others, _⟩
    · exact (same t).trans (only t)
    · have itself : s = u := (others s).mp ((only s).mpr rfl)
      rw [← itself, lasting] at removable
      cases removable

/-- The source of an edge that is taken out had no other way out, so all its ways carried one
statement from the beginning. -/
theorem ArmsLeft.bypass {g : Graph ν} [DecidableEq ν] {d : Edge ν} {after : List (Edge ν)}
    (left : ArmsLeft threading input g.edges) (member : d ∈ g.edges)
    (sole : g.outDegree d.source ≤ 1) (removable : d.statement.isRemovable threading = true)
    (armsIff : ∀ n s, HasArm after n s ↔ HasArm g.edges n s ∧ n ≠ d.source) :
    ArmsLeft threading input after := by
  intro n
  by_cases source : n = d.source
  · subst source
    have present : HasArm g.edges d.source d.statement := ⟨d, member, rfl, rfl⟩
    have only (t : Statement) : HasArm g.edges d.source t ↔ t = d.statement := by
      refine ⟨?_, fun same => same ▸ present⟩
      rintro ⟨e, listed, leaves, rfl⟩
      rw [Graph.eq_of_sole member sole listed leaves]
    rcases left d.source with same | ⟨_, _, _, gone⟩
    · refine .inr ⟨d.statement, removable, fun t => (same t).symm.trans (only t), fun t arm => ?_⟩
      exact ((armsIff d.source t).mp arm).2 rfl
    · exact absurd present (gone d.statement)
  · have unchanged (s : Statement) : HasArm after n s ↔ HasArm g.edges n s := by
      simp [armsIff, source]
    refine (left n).imp (fun same s => (unchanged s).trans (same s)) ?_
    rintro ⟨s, removable, only, gone⟩
    exact ⟨s, removable, only, fun t arm => gone t ((unchanged t).mp arm)⟩

namespace Pass

variable {p q start : Pass} {i : Interrupts} {number : Nat} {limit countdown : Option Nat}
  {dead es : List (Edge Location)} {e : Edge Location} {r : Removal} {m : Moment}
  {removals earlier : List Removal}

theorem isRemovable_of_isDead (verdict : p.isDead e = .ok true) :
    e.statement.isRemovable p.threading = true := by
  unfold isDead at verdict
  cases carried : e.statement with
  | assign | skip => rfl
  | assume condition kind =>
      simp only [Program.isDead, carried, Program.isThreadable, Except.ok.injEq, Bool.and_eq_true,
        decide_eq_true_eq] at verdict
      simp [Statement.isRemovable, verdict.1, verdict.2.1.1.2]
  | store | halt | call | foreign => simp [Program.isDead, carried] at verdict

/-- Removals of edges that can be removed have led from one state to the other. -/
structure Clears (p : Pass) (removals : List Removal) (q : Pass) : Prop where
  progress : Progress p removals q
  removable : ∀ r ∈ removals, r.edge.statement.isRemovable p.threading = true

theorem Clears.trans {s : Pass} {before after : List Removal} (first : p.Clears before q)
    (second : q.Clears after s) : p.Clears (before ++ after) s where
  progress := first.progress.trans second.progress
  removable r listed := by
    rcases List.mem_append.mp listed with early | late
    · exact first.removable r early
    · exact first.progress.settings.2 ▸ second.removable r late

/-- A round that judges may be the first round of a run. -/
theorem Judges.goesThrough (judges : p.Judges limit dead)
    (made : Makes (p.opening limit).pass countdown dead earlier q r) :
    ∃ i, p.GoesThrough i ⟨(p.opening limit).pass, earlier, q, r⟩ := by
  have running : p.cancelled = false := by
    have still := judges.running
    simp only [opening, analyze, Bool.or_eq_false_iff] at still
    exact still.1
  let i : Interrupts := { inRound := limit.map (1, ·), afterRemovals := countdown }
  have same : i.limit 1 = limit := by cases limit <;> simp [Interrupts.limit, i]
  have comes : p.ComesTo i 1 p limit countdown := same ▸ .now running
  exact ⟨i, p, limit, countdown, dead, comes, judges, rfl, made⟩

theorem Judges.isRemovable (judges : p.Judges limit dead)
    (made : Makes (p.opening limit).pass countdown dead earlier q r) :
    r.edge.statement.isRemovable p.threading = true := by
  obtain ⟨_, passes⟩ := judges.goesThrough made
  obtain ⟨e, rests⟩ := passes.restsOn
  have removable := isRemovable_of_isDead rests.dead
  rw [← rests.statement_eq] at removable
  exact removable

theorem Judges.clears (judges : p.Judges limit dead)
    (made : Makes (p.opening limit).pass countdown dead earlier q r) : p.Clears earlier q where
  progress := by simpa using (Progress.start.analyze limit).trans made.progress
  removable d listed := by
    obtain ⟨before, after, rfl⟩ := List.append_of_mem listed
    obtain ⟨_, first⟩ := made.of_earlier rfl
    exact judges.isRemovable first

theorem removed_mem_of_mem {events : List Event} (listed : r ∈ removals)
    (reported : events.filter Event.isLoss = removals.flatMap Removal.events) :
    .removed r.edge ∈ events := by
  have inside : Event.removed r.edge ∈ removals.flatMap Removal.events :=
    List.mem_flatMap.mpr ⟨r, listed, (removed_mem_events_remove r).mpr rfl⟩
  exact (List.mem_filter.mp (reported ▸ inside)).1

theorem round_clears (p : Pass) (limit countdown : Option Nat) :
    ∃ removals, p.Clears removals (p.round limit countdown).pass := by
  obtain ⟨removals, progress, reported⟩ := p.round_progress limit countdown
  refine ⟨removals, progress, fun r listed => ?_⟩
  obtain ⟨dead, earlier, q, d, judges, made, same⟩ :=
    (p.removed_mem_round_events ..).mp (removed_mem_of_mem listed reported)
  exact same ▸ judges.isRemovable made

theorem ComesTo.clears (comes : p.ComesTo i number q limit countdown) :
    ∃ removals, p.Clears removals q := by
  induction comes with
  | now => exact ⟨[], .start, by simp⟩
  | later _ _ _ _ ih =>
      obtain ⟨before, first⟩ := round_clears _ _ _
      obtain ⟨after, second⟩ := ih
      exact ⟨before ++ after, first.trans second⟩

theorem run_clears (p : Pass) (i : Interrupts) : ∃ removals, p.Clears removals (p.run i).pass := by
  obtain ⟨removals, progress, reported⟩ := p.run_progress i
  refine ⟨removals, progress, fun r listed => ?_⟩
  obtain ⟨m, ⟨q, limit, countdown, dead, comes, judges, judged, made⟩, same⟩ :=
    (p.removed_mem_run_events i).mp (removed_mem_of_mem listed reported)
  obtain ⟨_, before⟩ := comes.clears
  rw [judged] at made
  exact same ▸ before.progress.settings.2 ▸ judges.isRemovable made

theorem Reached.clears (reached : Reached start p) : ∃ removals, start.Clears removals p := by
  induction reached with
  | start => exact ⟨[], .start, by simp⟩
  | run _ i ih =>
      obtain ⟨before, first⟩ := ih
      obtain ⟨after, second⟩ := run_clears _ i
      exact ⟨before ++ after, first.trans second⟩
  | interrupt _ ih =>
      obtain ⟨removals, clears⟩ := ih
      exact ⟨removals, clears.progress.cancel, clears.removable⟩

theorem GoesThrough.clears (passes : p.GoesThrough i m) :
    (∃ removals, p.Clears removals m.state) ∧
      m.removal.edge.statement.isRemovable p.threading = true := by
  obtain ⟨q, limit, countdown, dead, comes, judges, judged, made⟩ := passes
  rw [judged] at made
  obtain ⟨before, first⟩ := comes.clears
  refine ⟨⟨_, first.trans (judges.clears made)⟩, ?_⟩
  exact first.progress.settings.2 ▸ judges.isRemovable made

theorem Clears.armsLeft (clears : start.Clears removals p) :
    ArmsLeft start.threading start.graph.edges p.graph.edges := by
  obtain ⟨progress, removable⟩ := clears
  induction progress with
  | start => exact fun n => .inl fun s => Iff.rfl
  | analyze _ _ ih => exact ih removable
  | cancel _ ih => exact ih removable
  | @remove removals p id r _ removed ih =>
      obtain ⟨member, _, sole, _⟩ := contracted_of_remove? removed
      have before := ih fun d listed => removable d (List.mem_append_left _ listed)
      refine before.bypass member sole (removable r (by simp)) fun n s => ?_
      obtain ⟨_, _, _, left⟩ := remove?_eq_some_iff.mp removed
      rw [left]
      dsimp only
      rw [LiveGraph.edges_contract]
      exact Graph.hasArm_midway member sole (List.append_nil _).symm

/-- No branch arm and no effect is ever lost. Whatever has been run, interrupted or stopped by an error
before, and at every step of every removal, the ways out of a location carry all the statements they
carried at first if these were different ones, and so they do if it was one that is never removed. -/
theorem reached_keeps_arms (program : Program) (threading : Bool)
    (schedule : Nat → Schedule Location) {edges : List (Edge Location)}
    (identified : Edge.Identified edges) :
    let start := { ofEdges program threading edges with schedule }
    ∀ p, Reached start p → KeepsArms threading (Edge.arrange edges) p.graph.edges ∧
      ∀ i m, p.GoesThrough i m →
        KeepsArms threading (Edge.arrange edges) m.state.graph.edges ∧
        (∀ sent later, m.redirected = sent ++ later → KeepsArms threading (Edge.arrange edges)
          (m.state.graph.midway m.removal.edge sent).edges) ∧
        KeepsArms threading (Edge.arrange edges) m.removal.pass.graph.edges := by
  intro start p reached
  have same {e : Edge Location} : e ∈ start.graph.edges ↔ e ∈ Edge.arrange edges :=
    mem_graph_ofEdges program threading identified
  have armIff (l : Location) (s : Statement) :
      HasArm start.graph.edges l s ↔ HasArm (Edge.arrange edges) l s := by
    simp only [HasArm, same]
  have fromInput {es : List (Edge Location)} (left : ArmsLeft threading start.graph.edges es) :
      ArmsLeft threading (Edge.arrange edges) es := by
    simpa only [ArmsLeft, armIff] using left
  obtain ⟨_, cleared⟩ := reached.clears
  refine ⟨(fromInput cleared.armsLeft).keepsArms, fun i m passes => ?_⟩
  obtain ⟨⟨_, further⟩, removable⟩ := passes.clears
  have before : ArmsLeft threading (Edge.arrange edges) m.state.graph.edges :=
    fromInput (cleared.trans further).armsLeft
  have sameSetting : p.threading = threading := cleared.progress.settings.2
  rw [sameSetting] at removable
  obtain ⟨member, _, sole, _⟩ := contracted_of_remove? passes.remove?
  have during : ∀ sent later, m.redirected = sent ++ later →
      KeepsArms threading (Edge.arrange edges) (m.state.graph.midway m.removal.edge sent).edges :=
    fun sent later parts => (before.bypass member sole removable fun _ _ =>
      Graph.hasArm_midway member sole parts).keepsArms
  refine ⟨before.keepsArms, during, ?_⟩
  obtain ⟨_, _, _, left⟩ := remove?_eq_some_iff.mp passes.remove?
  rw [left]
  dsimp only
  rw [LiveGraph.edges_contract]
  exact during _ [] (List.append_nil _).symm

/-- A branch with one arm given twice, which are merged, and a store behind it. -/
def doubledArm : List (Edge Location) :=
  [⟨0, ⟨0x1000, 0⟩, ⟨0x1001, 0⟩, .assume (.var "ecx") .ordinary⟩,
   ⟨1, ⟨0x1000, 0⟩, ⟨0x1002, 0⟩, .assume (.var "ecx") .ordinary⟩,
   ⟨2, ⟨0x1000, 0⟩, ⟨0x1003, 0⟩, .skip⟩,
   ⟨3, ⟨0x1001, 0⟩, ⟨0x1002, 0⟩, .skip⟩,
   ⟨4, ⟨0x1002, 0⟩, ⟨0x1003, 0⟩, .store (.var "eax") (.var "ebx")⟩]

theorem doubledArm_keeps_arms :
    let start := ofEdges { architecture := .x86 } false doubledArm
    Edge.Identified doubledArm ∧ (start.run {}).pass.removed = 2 ∧
      (∀ s, HasArm (start.run {}).pass.graph.edges ⟨0x1000, 0⟩ s ↔
        HasArm (Edge.arrange doubledArm) ⟨0x1000, 0⟩ s) ∧
      (∀ s, HasArm (start.run {}).pass.graph.edges ⟨0x1002, 0⟩ s ↔
        s = .store (.var "eax") (.var "ebx")) ∧
      ∃ m, start.GoesThrough {} m ∧ m.removal.edge.id = 3 ∧
        KeepsArms false (Edge.arrange doubledArm) m.removal.pass.graph.edges := by
  intro start
  have identified : Edge.Identified doubledArm := by decide +kernel
  have removed : (start.run {}).pass.removed = 2 := by decide +kernel
  have arranged : Edge.arrange doubledArm = doubledArm := by decide +kernel
  have reported : .removed ⟨3, ⟨0x1001, 0⟩, ⟨0x1002, 0⟩, .skip⟩ ∈ (start.run {}).events := by
    decide +kernel
  have keeps := reached_keeps_arms { architecture := .x86 } false (fun _ => .smallest) identified
  have ended := (keeps _ (.run .start {})).1
  have tests : HasArm (Edge.arrange doubledArm) ⟨0x1000, 0⟩ (.assume (.var "ecx") .ordinary) := by
    rw [arranged]
    exact ⟨doubledArm[0], by simp [doubledArm], rfl, rfl⟩
  have skips : HasArm (Edge.arrange doubledArm) ⟨0x1000, 0⟩ .skip := by
    rw [arranged]
    exact ⟨doubledArm[2], by simp [doubledArm], rfl, rfl⟩
  have stores (s : Statement) : HasArm (Edge.arrange doubledArm) ⟨0x1002, 0⟩ s ↔
      s = .store (.var "eax") (.var "ebx") := by
    rw [arranged]
    simp [HasArm, doubledArm, eq_comm]
  obtain ⟨m, passes, edge⟩ := (removed_mem_run_events ..).mp reported
  refine ⟨identified, removed, ended.branches _ _ _ tests skips (by simp),
    ended.effects _ _ stores rfl, m, passes, by rw [edge], ?_⟩
  exact ((keeps start .start).2 {} m passes).2.2

end Pass

end Deadwood
