import Deadwood.Proofs.Course

namespace Deadwood

/-!
Requests to stop. During a run a request is made when so many live sets of a round have changed, or
right after so many removals. Main statement: a run reports a request exactly if it gets that far,
and it ends cancelled exactly if it was before or has made a request. What is cancelled stays as it
is, whatever is called.
-/

def Event.isRemoval : Event → Bool
  | removed _ => true
  | _ => false

namespace Solver

variable {ν : Type} [DecidableEq ν] [Node ν] {g : Graph ν}

theorem updates_iterate_zero (schedule : Schedule ν) (visits number : Nat) (s : Solver ν) :
    (iterate g schedule visits number (some 0) s).updates = 0 := by
  unfold iterate
  split <;> rfl

/-- A limit cuts the updates off where it is reached. -/
theorem updates_iterate_limit (schedule : Schedule ν) (visits number limit : Nat) (s : Solver ν) :
    (iterate g schedule visits number (some limit) s).updates =
      min limit (iterate g schedule visits number none s).updates := by
  induction visits generalizing number limit s with
  | zero =>
      unfold iterate
      cases schedule.pick number s.pending with
      | none => simp
      | some n => by_cases atOnce : limit = 0 <;> simp [atOnce]
  | succ visits ih =>
      cases limit with
      | zero => rw [updates_iterate_zero, Nat.zero_min]
      | succ limit =>
          unfold iterate
          cases schedule.pick number s.pending with
          | none => simp
          | some n =>
              cases stepped : s.step g n with
              | mk result t =>
                  rcases result with failure | _ | update
                  · simp [stepped]
                  · simp [stepped, ih]
                  · simp [stepped, ih, Nat.succ_min_succ]

end Solver

namespace Pass

variable {p q : Pass} {i : Interrupts} {number : Nat} {limit countdown : Option Nat}
  {requested before : Prop} {events later : List Event}

/-- A countdown comes to its end within so many removals. -/
def Expires (countdown : Option Nat) (removals : Nat) : Prop :=
  ∃ number, countdown = some number ∧ 0 < number ∧ number ≤ removals

theorem not_expires_zero (countdown : Option Nat) : ¬ Expires countdown 0 := by
  intro ⟨number, _, positive, within⟩
  omega

theorem expires_one : Expires countdown 1 ↔ countdown = some 1 := by
  constructor
  · intro ⟨number, chosen, positive, first⟩
    rw [chosen, Nat.le_antisymm first positive]
  · exact fun chosen => ⟨1, chosen, Nat.one_pos, Nat.le_refl 1⟩

/-- A countdown that has not come to its end goes on with what is left of it. -/
theorem expires_add (countdown : Option Nat) (first rest : Nat) :
    Expires countdown (first + rest) ↔
      Expires countdown first ∨ Expires (countdown.map (· - first)) rest := by
  cases countdown with
  | none => simp [Expires]
  | some number =>
      simp only [Expires, Option.some.injEq, exists_eq_left', Option.map_some]
      omega

/-- A request made on the way from one state to another is reported, and it is never withdrawn. -/
structure Heeds (p : Pass) (requested : Prop) (events : List Event) (q : Pass) : Prop where
  reported : .cancelRequested ∈ events ↔ requested
  cancelled : q.cancelled = true ↔ p.cancelled = true ∨ requested

namespace Heeds

theorem silent (p : Pass) (quiet : .cancelRequested ∉ events) : Heeds p False events p :=
  ⟨iff_of_false quiet id, (or_false _).to_iff.symm⟩

theorem trans {r : Pass} (first : Heeds p before events q) (rest : Heeds q requested later r) :
    Heeds p (before ∨ requested) (events ++ later) r where
  reported := by rw [List.mem_append, first.reported, rest.reported]
  cancelled := by rw [rest.cancelled, first.cancelled, or_assoc]

theorem congr (heeds : Heeds p before events q) (same : before ↔ requested) :
    Heeds p requested events q :=
  ⟨heeds.reported.trans same, heeds.cancelled.trans (or_congr_right same)⟩

theorem append (heeds : Heeds p requested events q) (quiet : .cancelRequested ∉ later) :
    Heeds p requested (events ++ later) q :=
  (heeds.trans (.silent q quiet)).congr (or_false _).to_iff

end Heeds

theorem mem_request_iff {requested : Prop} [Decidable requested] :
    .cancelRequested ∈ (if requested then [Event.cancelRequested] else []) ↔ requested := by
  split
  case isTrue made => exact iff_of_true List.mem_cons_self made
  case isFalse missed => exact iff_of_false List.not_mem_nil missed

/-- Computing liveness, a round changes as many live sets as the limit asks for. -/
def Meets (p : Pass) (limit : Option Nat) : Prop :=
  ∃ updates, limit = some updates ∧ updates ≤ (p.opening none).outcome.updates

theorem updates_opening (p : Pass) (limit : Nat) :
    (p.opening (some limit)).outcome.updates = min limit (p.opening none).outcome.updates :=
  Solver.updates_iterate_limit ..

theorem meets_iff : p.Meets limit ↔ limit = some (p.opening limit).outcome.updates := by
  cases limit with
  | none => simp [Meets]
  | some limit =>
      simp only [Meets, updates_opening, Option.some.injEq, exists_eq_left']
      omega

theorem opening_heeds (p : Pass) (limit : Option Nat) :
    Heeds p (p.Meets limit) (p.opening limit).events (p.opening limit).pass := by
  have quiet : .cancelRequested ∉ (p.opening limit).outcome.events := by
    unfold Outcome.events
    split <;> simp
  have events : (p.opening limit).events =
      (if limit = some (p.opening limit).outcome.updates then [.cancelRequested] else []) ++
        (p.opening limit).outcome.events := rfl
  rw [meets_iff]
  constructor
  · rw [events, List.mem_append, or_iff_left quiet, mem_request_iff]
  · show (p.cancelled || decide (limit = some (p.opening limit).outcome.updates)) = true ↔ _
    rw [Bool.or_eq_true, decide_eq_true_eq]

theorem Removal.heeds {id : Nat} {r : Removal} (removed : p.remove? id = some r)
    (countdown : Option Nat) :
    Heeds p (Expires countdown 1)
      (r.events ++ if countdown = some 1 then [.cancelRequested] else []) (r.after countdown) := by
  obtain ⟨_, _, _, left⟩ := remove?_eq_some_iff.mp removed
  have quiet : .cancelRequested ∉ r.events := by simp [Removal.events]
  have kept : r.pass.cancelled = p.cancelled := by rw [left]
  rw [expires_one]
  constructor
  · rw [List.mem_append, or_iff_right quiet, mem_request_iff]
  · unfold Removal.after
    split
    case isTrue last => exact iff_of_true rfl (.inr last)
    case isFalse early => rw [kept, or_iff_left early]

theorem countP_removal_events (r : Removal) : r.events.countP Event.isRemoval = 1 := by
  simp [Removal.events, Event.isRemoval, List.countP_append, List.countP_eq_zero]

theorem countP_sweep_events (p : Pass) (countdown : Option Nat) (es : List (Edge Location)) :
    (p.sweep countdown es).events.countP Event.isRemoval = (p.sweep countdown es).removals := by
  induction es generalizing p countdown with
  | nil => rfl
  | cons e es ih =>
      cases removed : p.remove? e.id with
      | none =>
          simp only [sweep, removed]
          exact ih p countdown
      | some r =>
          have quiet : (if countdown = some 1 then [Event.cancelRequested] else []).countP
              Event.isRemoval = 0 := by split <;> rfl
          simp only [sweep, removed, List.countP_append, countP_removal_events, quiet, ih]
          omega

/-- A sweep makes the request right after the removal at which the countdown ends, if it gets there. -/
theorem sweep_heeds (p : Pass) (countdown : Option Nat) (es : List (Edge Location)) :
    Heeds p (Expires countdown (p.sweep countdown es).removals) (p.sweep countdown es).events
      (p.sweep countdown es).pass := by
  induction es generalizing p countdown with
  | nil =>
      have nothing : Heeds p False [] p := .silent p List.not_mem_nil
      exact nothing.congr (iff_of_false id (not_expires_zero countdown))
  | cons e es ih =>
      cases removed : p.remove? e.id with
      | none =>
          simp only [sweep, removed]
          exact ih p countdown
      | some r =>
          have rest := ih (r.after countdown) (countdown.map (· - 1))
          simp only [sweep, removed]
          refine ((Removal.heeds removed countdown).trans rest).congr ?_
          rw [Nat.add_comm]
          exact (expires_add countdown 1 _).symm

theorem countP_opening_events (p : Pass) (limit : Option Nat) :
    (p.opening limit).events.countP Event.isRemoval = 0 := by
  unfold opening analyze Outcome.events
  dsimp only
  split <;> split <;> rfl

theorem Judges.countP_events {dead : List (Edge Location)} (judges : p.Judges limit dead)
    (countdown : Option Nat) :
    (p.round limit countdown).events.countP Event.isRemoval =
      ((p.opening limit).pass.sweep countdown dead).removals := by
  rw [judges.round_eq countdown]
  simp [List.countP_append, countP_opening_events, countP_sweep_events, Event.isRemoval]

theorem countP_round_events {removals : Nat}
    (swept : (p.round limit countdown).ending = .swept removals) :
    (p.round limit countdown).events.countP Event.isRemoval = removals := by
  obtain ⟨dead, judges⟩ := exists_judges_of_swept swept
  rw [judges.round_eq countdown] at swept
  rw [judges.countP_events countdown]
  exact RoundEnd.swept.inj swept

/-- A round makes a request while it computes liveness or among its removals. -/
theorem round_heeds (p : Pass) (limit countdown : Option Nat) :
    Heeds p
      (p.Meets limit ∨
        Expires countdown ((p.round limit countdown).events.countP Event.isRemoval))
      (p.round limit countdown).events (p.round limit countdown).pass := by
  rcases p.round_cases limit countdown with ⟨dead, judges⟩ | ⟨ending, _, same⟩
  · rw [judges.countP_events countdown, judges.round_eq countdown]
    exact (p.opening_heeds limit).trans ((sweep_heeds ..).append (by simp))
  · rw [same]
    dsimp only
    rw [countP_opening_events]
    exact (p.opening_heeds limit).congr (or_iff_left (not_expires_zero countdown)).symm

/-- Rounds, counted from a number on, come to one that changes as many live sets as its limit asks
for. -/
def Overtakes (p : Pass) (i : Interrupts) (number : Nat) : Prop :=
  ∃ q limit countdown, p.ComesTo i number q limit countdown ∧ q.Meets limit

theorem round_heeds_of_last (running : p.cancelled = false)
    (last : ∀ removals, (p.round (i.limit number) i.afterRemovals).ending = .swept removals →
      removals = 0) :
    let r := p.round (i.limit number) i.afterRemovals
    Heeds p (p.Overtakes i number ∨ Expires i.afterRemovals (r.events.countP Event.isRemoval))
      r.events r.pass := by
  have overtakes : p.Overtakes i number ↔ p.Meets (i.limit number) :=
    exists_comesTo_of_last running last
  exact (p.round_heeds ..).congr (or_congr_left overtakes.symm)

theorem rounds_heeds (p : Pass) (i : Interrupts) (number : Nat) :
    let r := p.rounds i number
    Heeds p (p.Overtakes i number ∨ Expires i.afterRemovals (r.events.countP Event.isRemoval))
      r.events r.pass := by
  fun_induction rounds p i number with
  | case1 p i number cancelled =>
      refine (Heeds.silent p List.not_mem_nil).congr (iff_of_false id ?_)
      intro requested
      rcases requested with ⟨q, limit, countdown, comes, _⟩ | expires
      · cases cancelled.symm.trans comes.running
      · exact not_expires_zero _ expires
  | case2 p i number running r error ending =>
      exact round_heeds_of_last (by simpa using running) fun _ swept => by
        cases ending.symm.trans swept
  | case3 p i number running r ending =>
      exact round_heeds_of_last (by simpa using running) fun _ swept => by
        cases ending.symm.trans swept
  | case4 p i number running r ending =>
      exact round_heeds_of_last (by simpa using running) fun _ swept => by
        cases ending.symm.trans swept
        rfl
  | case5 p i number running r removals ending more left rest ih =>
      have counted : r.events.countP Event.isRemoval = removals := countP_round_events ending
      have first : Heeds p (p.Meets (i.limit number) ∨ Expires i.afterRemovals removals) r.events
          r.pass := counted ▸ p.round_heeds ..
      have overtakes : p.Overtakes i number ↔
          p.Meets (i.limit number) ∨ r.pass.Overtakes left (number + 1) :=
        exists_comesTo_of_progress (by simpa using running) ending more
      refine (first.trans ih).congr ?_
      dsimp only
      rw [List.countP_append, counted, expires_add, overtakes]
      exact or_or_or_comm

/-- The request that a run is to make comes into effect: the run comes to a round that changes as many
live sets as the request waits for, or it makes as many removals. -/
inductive TakesEffect (p : Pass) (i : Interrupts) : Prop
  | update {q : Pass} {updates : Nat} {countdown : Option Nat}
      (comes : p.ComesTo i 1 q (some updates) countdown)
      (made : updates ≤ (q.opening none).outcome.updates) : TakesEffect p i
  | removal {number : Nat} (chosen : i.afterRemovals = some number) (positive : 0 < number)
      (made : number ≤ (p.run i).events.countP Event.isRemoval) : TakesEffect p i

theorem takesEffect_iff (p : Pass) (i : Interrupts) :
    p.TakesEffect i ↔
      p.Overtakes i 1 ∨ Expires i.afterRemovals ((p.run i).events.countP Event.isRemoval) := by
  constructor
  · intro effect
    cases effect with
    | update comes made => exact .inl ⟨_, _, _, comes, _, rfl, made⟩
    | removal chosen positive made => exact .inr ⟨_, chosen, positive, made⟩
  · intro requested
    rcases requested with ⟨q, _, countdown, comes, updates, rfl, made⟩ | ⟨_, chosen, positive, made⟩
    · exact .update comes made
    · exact .removal chosen positive made

/-- A run makes the request it is to make if it gets that far, and is cancelled from then on. -/
theorem run_heeds (p : Pass) (i : Interrupts) :
    Heeds p (p.TakesEffect i) (p.run i).events (p.run i).pass := by
  have counted : (p.run i).events.countP Event.isRemoval =
      (p.rounds i 1).events.countP Event.isRemoval := by
    cases failure : (p.rounds i 1).error with
    | some | none => simp [run, failure, Event.isRemoval]
  rw [takesEffect_iff, counted]
  have begun : Heeds p False [.started] p := .silent p (by simp)
  have whole := (begun.trans (p.rounds_heeds i 1)).congr (false_or _).to_iff
  refine whole.append ?_
  split <;> simp

theorem rounds_of_cancelled (cancelled : p.cancelled = true) (i : Interrupts) (number : Nat) :
    (p.rounds i number).pass = p := by
  rw [rounds, if_pos cancelled]

/-- What is cancelled stays as it is. -/
theorem Reached.eq_of_cancelled {start : Pass} (cancelled : start.cancelled = true)
    (reached : Reached start p) : p = start := by
  induction reached with
  | start => rfl
  | run _ i ih =>
      rw [ih]
      exact rounds_of_cancelled cancelled i 1
  | interrupt _ ih =>
      rw [ih]
      show { start with cancelled := true } = start
      rw [← cancelled]

end Pass

end Deadwood
