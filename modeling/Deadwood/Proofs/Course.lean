import Deadwood.Proofs.Attempt
import Deadwood.Proofs.Rounds

namespace Deadwood.Pass

/-!
The course of a run, moment by moment. A run goes through rounds; a round judges the edges and then
sweeps; a sweep makes its removals one after the other, each in the state that the one before has
left. Every removal that a run reports is made at such a moment, and no other is.
-/

variable {p q start : Pass} {i : Interrupts} {number : Nat} {limit countdown : Option Nat}
  {dead es : List (Edge Location)} {e : Edge Location} {r : Removal} {earlier : List Removal}

/-- The states an elimination can be in between calls. It may have been run any number of times,
interrupted in any way, and told to stop. -/
inductive Reached (start : Pass) : Pass → Prop
  | start : Reached start start
  | run {p : Pass} (before : Reached start p) (i : Interrupts) : Reached start (p.run i).pass
  | interrupt {p : Pass} (before : Reached start p) : Reached start p.interrupt.pass

/-- How a round opens: liveness is computed from a fresh start. -/
def opening (p : Pass) (limit : Option Nat) : Analyzed :=
  { p with iterations := p.iterations + 1 }.analyze limit

/-- A round gets as far as to judge the edges, and finds these dead. -/
structure Judges (p : Pass) (limit : Option Nat) (dead : List (Edge Location)) : Prop where
  computed : (p.opening limit).outcome.ending = .converged
  running : (p.opening limit).pass.cancelled = false
  verdicts : (p.opening limit).pass.deadEdges = .ok dead

theorem cancelled_of_interrupted (p : Pass) (limit : Option Nat)
    (ended : (p.opening limit).outcome.ending = .interrupted) :
    (p.opening limit).pass.cancelled = true := by
  have reached := Solver.limit_of_interrupted ended
  simp only [opening, analyze, Bool.or_eq_true, decide_eq_true_eq]
  exact .inr reached

theorem Judges.round_eq (judges : p.Judges limit dead) (countdown : Option Nat) :
    p.round limit countdown =
      let opening := p.opening limit
      let swept := opening.pass.sweep countdown dead
      { pass := swept.pass
        events := opening.events ++ (swept.events ++
          [.round opening.pass.iterations opening.outcome.updates dead.length swept.removals])
        ending := .swept swept.removals } := by
  obtain ⟨computed, running, verdicts⟩ := judges
  unfold opening at *
  simp only [round, computed, running, Bool.false_eq_true, if_false, eliminate, verdicts]

/-- A round that leaves the edges alone, because of an error or a request to stop. -/
inductive Idles (p : Pass) (limit : Option Nat) : RoundEnd → Prop
  | failed (error : PassError) : Idles p limit (.failed error)
  | stopped (requested : (p.opening limit).pass.cancelled = true) : Idles p limit .stopped

/-- All that a round can come to: it judges the edges and sweeps, or it leaves them alone. -/
theorem round_cases (p : Pass) (limit countdown : Option Nat) :
    (∃ dead, p.Judges limit dead) ∨
      ∃ ending, p.Idles limit ending ∧ p.round limit countdown =
        { pass := (p.opening limit).pass, events := (p.opening limit).events, ending } := by
  cases ended : (p.opening limit).outcome.ending with
  | failed failure =>
      refine .inr ⟨_, .failed (.analysis failure), ?_⟩
      unfold opening at ended ⊢
      simp only [round, ended]
  | unfinished =>
      refine .inr ⟨_, .failed .unfinished, ?_⟩
      unfold opening at ended ⊢
      simp only [round, ended]
  | interrupted =>
      have requested := cancelled_of_interrupted p limit ended
      refine .inr ⟨_, .stopped requested, ?_⟩
      unfold opening at ended requested ⊢
      simp only [round, ended, requested, if_true]
  | converged =>
      cases requested : (p.opening limit).pass.cancelled with
      | true =>
          refine .inr ⟨_, .stopped requested, ?_⟩
          unfold opening at ended requested ⊢
          simp only [round, ended, requested, if_true]
      | false =>
          cases judged : (p.opening limit).pass.deadEdges with
          | ok dead => exact .inl ⟨dead, ended, requested, judged⟩
          | error location =>
              refine .inr ⟨_, .failed (.missing location), ?_⟩
              unfold opening at ended requested judged ⊢
              simp only [round, ended, requested, Bool.false_eq_true, if_false, eliminate, judged,
                List.append_nil]

theorem exists_judges_of_swept {removals : Nat}
    (swept : (p.round limit countdown).ending = .swept removals) : ∃ dead, p.Judges limit dead := by
  rcases p.round_cases limit countdown with judges | ⟨ending, idles, same⟩
  · exact judges
  · rw [same] at swept
    cases idles <;> cases swept

/-- Rounds, counted from a number on, come to a round that starts in the state `q`. -/
inductive ComesTo : Pass → Interrupts → Nat → Pass → Option Nat → Option Nat → Prop
  | now {p : Pass} {i : Interrupts} {number : Nat} (running : p.cancelled = false) :
      ComesTo p i number p (i.limit number) i.afterRemovals
  | later {p q : Pass} {i : Interrupts} {number removals : Nat} {limit countdown : Option Nat}
      (running : p.cancelled = false)
      (swept : (p.round (i.limit number) i.afterRemovals).ending = .swept removals)
      (progress : removals ≠ 0)
      (rest : ComesTo (p.round (i.limit number) i.afterRemovals).pass
        { i with afterRemovals := i.afterRemovals.map (· - removals) } (number + 1)
        q limit countdown) :
      ComesTo p i number q limit countdown

/-- The state a removal leaves. If the countdown ends there, cancellation has been requested. -/
def Removal.after (r : Removal) (countdown : Option Nat) : Pass :=
  if countdown = some 1 then r.pass.cancel else r.pass

/-- A sweep makes a removal in the state `q`, behind others that it has made. -/
inductive Makes : Pass → Option Nat → List (Edge Location) → List Removal → Pass → Removal → Prop
  | now {p : Pass} {countdown : Option Nat} {e : Edge Location} {es : List (Edge Location)}
      {r : Removal} (removed : p.remove? e.id = some r) : Makes p countdown (e :: es) [] p r
  | past {p q : Pass} {countdown : Option Nat} {e : Edge Location} {es : List (Edge Location)}
      {earlier : List Removal} {r : Removal} (kept : p.remove? e.id = none)
      (rest : Makes p countdown es earlier q r) : Makes p countdown (e :: es) earlier q r
  | behind {p q : Pass} {countdown : Option Nat} {e : Edge Location} {es : List (Edge Location)}
      {earlier : List Removal} {first r : Removal} (removed : p.remove? e.id = some first)
      (rest : Makes (first.after countdown) (countdown.map (· - 1)) es earlier q r) :
      Makes p countdown (e :: es) (first :: earlier) q r

/-- A removal in the course of a run: the state in which its round judged the edges, the removals that
the round had made before, and the state it is made in. -/
structure Moment where
  judged : Pass
  earlier : List Removal
  state : Pass
  removal : Removal

/-- A run goes through a moment. -/
def GoesThrough (p : Pass) (i : Interrupts) (m : Moment) : Prop :=
  ∃ q limit countdown dead, p.ComesTo i 1 q limit countdown ∧ q.Judges limit dead ∧
    m.judged = (q.opening limit).pass ∧ Makes m.judged countdown dead m.earlier m.state m.removal

theorem removed_mem_events_remove (r : Removal) : .removed e ∈ r.events ↔ r.edge = e := by
  simp [Removal.events, eq_comm]

theorem removed_mem_sweep_events (p : Pass) (countdown : Option Nat) (es : List (Edge Location)) :
    .removed e ∈ (p.sweep countdown es).events ↔
      ∃ earlier q r, Makes p countdown es earlier q r ∧ r.edge = e := by
  induction es generalizing p countdown with
  | nil =>
      constructor
      · intro listed
        cases listed
      · rintro ⟨_, _, _, made, _⟩
        cases made
  | cons d es ih =>
      cases removed : p.remove? d.id with
      | none =>
          simp only [sweep, removed, ih]
          constructor
          · rintro ⟨earlier, q, r, made, same⟩
            exact ⟨earlier, q, r, .past removed made, same⟩
          · rintro ⟨earlier, q, r, made, same⟩
            cases made with
            | now other => cases removed.symm.trans other
            | past _ rest => exact ⟨_, _, _, rest, same⟩
            | behind other => cases removed.symm.trans other
      | some first =>
          have silent : Event.removed e ∉
              (if countdown = some 1 then [Event.cancelRequested] else []) := by split <;> simp
          have rest := ih (first.after countdown) (countdown.map (· - 1))
          unfold Removal.after at rest
          simp only [sweep, removed, List.mem_append, silent, or_false, removed_mem_events_remove,
            rest]
          constructor
          · rintro (same | ⟨earlier, q, r, made, same⟩)
            · exact ⟨[], p, first, .now removed, same⟩
            · exact ⟨first :: earlier, q, r, .behind removed made, same⟩
          · rintro ⟨earlier, q, r, made, same⟩
            cases made with
            | now other =>
                cases removed.symm.trans other
                exact .inl same
            | past kept => cases removed.symm.trans kept
            | behind other rest =>
                cases removed.symm.trans other
                exact .inr ⟨_, _, _, rest, same⟩

theorem Judges.unique {others : List (Edge Location)} (first : p.Judges limit dead)
    (second : p.Judges limit others) : dead = others :=
  Except.ok.inj (first.verdicts.symm.trans second.verdicts)

theorem removed_mem_round_events (p : Pass) (limit countdown : Option Nat) :
    .removed e ∈ (p.round limit countdown).events ↔
      ∃ dead earlier q r, p.Judges limit dead ∧
        Makes (p.opening limit).pass countdown dead earlier q r ∧ r.edge = e := by
  have silent : .removed e ∉ (p.opening limit).events := fun listed => by
    have kept := List.mem_filter.mpr ⟨listed, (rfl : (Event.removed e).isLoss = true)⟩
    rw [opening, filter_events_analyze] at kept
    cases kept
  rcases p.round_cases limit countdown with ⟨dead, judges⟩ | ⟨ending, idles, same⟩
  · rw [judges.round_eq countdown]
    simp only [List.mem_append, silent, false_or, List.mem_singleton, reduceCtorEq, or_false,
      removed_mem_sweep_events]
    constructor
    · rintro ⟨earlier, q, r, made, same⟩
      exact ⟨dead, earlier, q, r, judges, made, same⟩
    · rintro ⟨others, earlier, q, r, again, made, same⟩
      exact ⟨earlier, q, r, judges.unique again ▸ made, same⟩
  · rw [same]
    refine iff_of_false silent ?_
    rintro ⟨dead, _, _, _, judges, _⟩
    have swept := judges.round_eq countdown
    rw [same] at swept
    cases idles <;> cases congrArg Round.ending swept

theorem ComesTo.eq_of_last (comes : p.ComesTo i number q limit countdown)
    (last : ∀ removals, (p.round (i.limit number) i.afterRemovals).ending = .swept removals →
      removals = 0) : q = p ∧ limit = i.limit number ∧ countdown = i.afterRemovals := by
  cases comes with
  | now => exact ⟨rfl, rfl, rfl⟩
  | later _ swept progress => exact absurd (last _ swept) progress

theorem ComesTo.running (comes : p.ComesTo i number q limit countdown) : p.cancelled = false := by
  cases comes with
  | now running | later running => exact running

section ComesTo

variable {P : Pass → Option Nat → Option Nat → Prop}

/-- If no round follows, rounds come to the first only. -/
theorem exists_comesTo_of_last (running : p.cancelled = false)
    (last : ∀ removals, (p.round (i.limit number) i.afterRemovals).ending = .swept removals →
      removals = 0) :
    (∃ q limit countdown, p.ComesTo i number q limit countdown ∧ P q limit countdown) ↔
      P p (i.limit number) i.afterRemovals := by
  constructor
  · intro ⟨q, limit, countdown, comes, holds⟩
    obtain ⟨rfl, rfl, rfl⟩ := comes.eq_of_last last
    exact holds
  · exact fun holds => ⟨p, _, _, .now running, holds⟩

theorem exists_comesTo_of_progress {removals : Nat} (running : p.cancelled = false)
    (swept : (p.round (i.limit number) i.afterRemovals).ending = .swept removals)
    (progress : removals ≠ 0) :
    (∃ q limit countdown, p.ComesTo i number q limit countdown ∧ P q limit countdown) ↔
      P p (i.limit number) i.afterRemovals ∨
        ∃ q limit countdown, (p.round (i.limit number) i.afterRemovals).pass.ComesTo
          { i with afterRemovals := i.afterRemovals.map (· - removals) } (number + 1)
          q limit countdown ∧ P q limit countdown := by
  constructor
  · intro ⟨q, limit, countdown, comes, holds⟩
    cases comes with
    | now => exact .inl holds
    | later _ again _ rest =>
        cases swept.symm.trans again
        exact .inr ⟨q, limit, countdown, rest, holds⟩
  · intro found
    rcases found with holds | ⟨q, limit, countdown, rest, holds⟩
    · exact ⟨p, _, _, .now running, holds⟩
    · exact ⟨q, limit, countdown, .later running swept progress rest, holds⟩

end ComesTo

theorem removed_mem_rounds_events (p : Pass) (i : Interrupts) (number : Nat) :
    .removed e ∈ (p.rounds i number).events ↔
      ∃ q limit countdown, p.ComesTo i number q limit countdown ∧
        .removed e ∈ (q.round limit countdown).events := by
  fun_induction rounds p i number with
  | case1 p i number cancelled =>
      refine iff_of_false (by simp) fun found => ?_
      obtain ⟨_, _, _, comes, _⟩ := found
      cases cancelled.symm.trans comes.running
  | case2 p i number running r error ending =>
      rw [exists_comesTo_of_last (by simpa using running) fun _ swept => by
        cases ending.symm.trans swept]
  | case3 p i number running r ending =>
      rw [exists_comesTo_of_last (by simpa using running) fun _ swept => by
        cases ending.symm.trans swept]
  | case4 p i number running r ending =>
      rw [exists_comesTo_of_last (by simpa using running) fun _ swept => by
        cases ending.symm.trans swept
        rfl]
  | case5 p i number running r removals ending more left rest ih =>
      show Event.removed e ∈ r.events ++ rest.events ↔ _
      rw [List.mem_append, ih, exists_comesTo_of_progress (by simpa using running) ending more]

/-- The moments that a run goes through are those at which it removes what it reports to have removed.
-/
theorem removed_mem_run_events (p : Pass) (i : Interrupts) :
    .removed e ∈ (p.run i).events ↔ ∃ m, p.GoesThrough i m ∧ m.removal.edge = e := by
  have same : .removed e ∈ (p.run i).events ↔ .removed e ∈ (p.rounds i 1).events := by
    cases failure : (p.rounds i 1).error with
    | some => simp [run, failure]
    | none => simp [run, failure]
  rw [same, removed_mem_rounds_events]
  constructor
  · rintro ⟨q, limit, countdown, comes, listed⟩
    obtain ⟨dead, earlier, s, r, judges, made, edge⟩ := (q.removed_mem_round_events ..).mp listed
    exact ⟨⟨_, earlier, s, r⟩, ⟨q, limit, countdown, dead, comes, judges, rfl, made⟩, edge⟩
  · rintro ⟨m, ⟨q, limit, countdown, dead, comes, judges, judged, made⟩, edge⟩
    refine ⟨q, limit, countdown, comes, (q.removed_mem_round_events ..).mpr ?_⟩
    exact ⟨dead, m.earlier, m.state, m.removal, judges, judged ▸ made, edge⟩

theorem Reached.progress (reached : Reached start p) : ∃ removals, Progress start removals p := by
  induction reached with
  | start => exact ⟨[], .start⟩
  | run _ i ih =>
      obtain ⟨before, first⟩ := ih
      obtain ⟨after, second, _⟩ := run_progress _ i
      exact ⟨before ++ after, first.trans second⟩
  | interrupt _ ih =>
      obtain ⟨removals, progress⟩ := ih
      exact ⟨removals, progress.cancel⟩

theorem ComesTo.progress (comes : p.ComesTo i number q limit countdown) :
    ∃ removals, Progress p removals q := by
  induction comes with
  | now => exact ⟨[], .start⟩
  | later _ _ _ _ ih =>
      obtain ⟨before, first, _⟩ := round_progress _ _ _
      obtain ⟨after, second⟩ := ih
      exact ⟨before ++ after, first.trans second⟩

theorem Removal.after_progress (removed : p.remove? e.id = some r) (countdown : Option Nat) :
    Progress p [r] (r.after countdown) := by
  have made : Progress p [r] r.pass := Progress.start.remove removed
  unfold Removal.after
  split
  · exact made.cancel
  · exact made

theorem Makes.progress (made : Makes p countdown es earlier q r) : Progress p earlier q := by
  induction made with
  | now => exact .start
  | past _ _ ih => exact ih
  | behind removed _ ih => exact (Removal.after_progress removed _).trans ih

theorem Makes.remove? (made : Makes p countdown es earlier q r) :
    q.remove? r.edge.id = some r := by
  induction made with
  | now removed => exact (contracted_of_remove? removed).2.1 ▸ removed
  | past _ _ ih | behind _ _ ih => exact ih

/-- Only edges that the sweep was given are removed. -/
theorem Makes.among (made : Makes p countdown es earlier q r) :
    ∀ d ∈ earlier ++ [r], ∃ e ∈ es, e.id = d.edge.id := by
  induction made with
  | now removed =>
      intro d listed
      rw [List.mem_singleton.mp listed]
      exact ⟨_, List.mem_cons_self, (contracted_of_remove? removed).2.1.symm⟩
  | past _ _ ih =>
      intro d listed
      obtain ⟨e, member, same⟩ := ih d listed
      exact ⟨e, List.mem_cons_of_mem _ member, same⟩
  | behind removed _ ih =>
      intro d listed
      rcases List.mem_cons.mp listed with rfl | later
      · exact ⟨_, List.mem_cons_self, (contracted_of_remove? removed).2.1.symm⟩
      · obtain ⟨e, member, same⟩ := ih d later
        exact ⟨e, List.mem_cons_of_mem _ member, same⟩

/-- What came before a removal of a sweep came before it at its own moment. -/
theorem Makes.of_earlier {before after : List Removal} {d : Removal}
    (made : Makes p countdown es earlier q r) (parts : earlier = before ++ d :: after) :
    ∃ state, Makes p countdown es before state d := by
  induction made generalizing before with
  | now => simp at parts
  | past kept _ ih =>
      obtain ⟨state, rest⟩ := ih parts
      exact ⟨state, .past kept rest⟩
  | behind removed _ ih =>
      rcases List.cons_eq_append_iff.mp parts with ⟨rfl, same⟩ | ⟨others, rfl, rest⟩
      · cases same
        exact ⟨_, .now removed⟩
      · obtain ⟨state, later⟩ := ih rest
        exact ⟨state, .behind removed later⟩

/-- The removal rests on the verdict on this edge: it is the edge removed, as it was when the round
judged it. Only its target may have been moved since. -/
structure Moment.RestsOn (m : Moment) (e : Edge Location) : Prop where
  listed : e ∈ m.judged.graph.edges
  dead : m.judged.isDead e = .ok true
  id_eq : m.removal.edge.id = e.id
  source_eq : m.removal.edge.source = e.source
  statement_eq : m.removal.edge.statement = e.statement
  target_eq : m.removal.edge.target = representative m.earlier e.target

namespace GoesThrough

variable {m : Moment}

theorem of_earlier {before after : List Removal} {d : Removal} (passes : p.GoesThrough i m)
    (parts : m.earlier = before ++ d :: after) :
    ∃ state, p.GoesThrough i { judged := m.judged, earlier := before, state, removal := d } := by
  obtain ⟨q, limit, countdown, dead, comes, judges, judged, made⟩ := passes
  obtain ⟨state, before⟩ := made.of_earlier parts
  exact ⟨state, q, limit, countdown, dead, comes, judges, judged, before⟩

theorem sweep_progress (passes : p.GoesThrough i m) : Progress m.judged m.earlier m.state := by
  obtain ⟨_, _, _, _, _, _, _, made⟩ := passes
  exact made.progress

theorem remove? (passes : p.GoesThrough i m) :
    m.state.remove? m.removal.edge.id = some m.removal := by
  obtain ⟨_, _, _, _, _, _, _, made⟩ := passes
  exact made.remove?

theorem restsOn (passes : p.GoesThrough i m) : ∃ e, m.RestsOn e := by
  have folding := passes.sweep_progress.folding
  obtain ⟨inside, _⟩ := contracted_of_remove? passes.remove?
  obtain ⟨q, limit, countdown, dead, _, judges, judged, made⟩ := passes
  obtain ⟨e, member, sameId, heir⟩ := folding.origin _ inside
  obtain ⟨_, source, statement, target, _⟩ := folding.kept e member _ heir
  obtain ⟨d, among, sameD⟩ := made.among m.removal (List.mem_append_right _ List.mem_cons_self)
  obtain ⟨listed, verdict⟩ := (mem_deadAmong (judged ▸ judges.verdicts)).mp among
  -- The edge found by its id in the list of dead edges and the edge it descends from are one.
  have itself : d = e :=
    m.judged.graph.eq_of_id_eq (mem_graph_of_mem_edges listed) member (sameD.trans sameId.symm)
  exact ⟨e, member, itself ▸ verdict, sameId.symm, source, statement, target⟩

/-- A run makes progress to the state in which it judges. -/
theorem judged_progress (passes : p.GoesThrough i m) : ∃ removals, Progress p removals m.judged := by
  obtain ⟨q, limit, _, _, comes, _, judged, _⟩ := passes
  obtain ⟨removals, progress⟩ := comes.progress
  exact ⟨removals, judged ▸ progress.analyze limit⟩

theorem progress (passes : p.GoesThrough i m) :
    ∃ removals, Progress p removals m.removal.pass := by
  obtain ⟨before, first⟩ := passes.judged_progress
  exact ⟨_, first.trans (passes.sweep_progress.remove passes.remove?)⟩

end GoesThrough

theorem Progress.settings {removals : List Removal} (progress : Progress start removals p) :
    p.program = start.program ∧ p.threading = start.threading := by
  induction progress with
  | start => exact ⟨rfl, rfl⟩
  | analyze _ _ ih => exact ih
  | cancel _ ih => exact ih
  | remove _ removed ih =>
      obtain ⟨_, _, _, left⟩ := remove?_eq_some_iff.mp removed
      rw [left]
      exact ih

end Deadwood.Pass
