import Deadwood.Proofs.Tendency

namespace Deadwood

/-!
Runs that visit pending nodes in a fixed order. From live sets that are not a seed, a visit may take
variables away as well as add them, and nothing need grow from one visit to the next. Main statement:
a run that always visits the smallest pending node, or always the largest, ends all the same.

Between two visits of a node only nodes that go before it are visited. These were at rest when it was
visited first, so the second visit finds nothing new, and each node that is let in at most doubles the
visits.
-/

namespace Solver

variable {ν : Type} [DecidableEq ν] {g : Graph ν} {n : ν}

/-- How many of the visits are of nodes with a way out. -/
def wayVisits (g : Graph ν) (ns : List ν) : Nat := ns.countP (· ∈ g.ways)

theorem wayVisits_append_cons (ns ms : List ν) (way : n ∈ g.ways) :
    wayVisits g (ns ++ n :: ms) = wayVisits g ns + wayVisits g ms + 1 := by
  simp only [wayVisits, List.countP_append]
  rw [List.countP_cons_of_pos (by simpa using way)]
  omega

theorem wayVisits_eq_zero {ns : List ν} (exits : ∀ n ∈ ns, n ∉ g.ways) : wayVisits g ns = 0 :=
  List.countP_eq_zero.mpr fun n member => by simpa using exits n member

variable [Node ν] {s t u : Solver ν} {update : Option (Update ν)}

/-- The nodes with a way out among the visited ones are listed, and have been visited before. -/
def Familiar (g : Graph ν) (s : Solver ν) (listed ns : List ν) : Prop :=
  ∀ n ∈ ns, n ∈ g.ways → n ∈ listed ∧ Engaged g s n

theorem Familiar.tail {x : ν} {rest ns ms : List ν} (familiar : Familiar g s (x :: rest) ns)
    (within : ∀ n ∈ ms, n ∈ ns) (apart : x ∉ ms) : Familiar g s rest ms := by
  intro n member way
  obtain ⟨listed, engaged⟩ := familiar n (within n member) way
  have other : n ≠ x := fun same => apart (same ▸ member)
  exact ⟨(List.mem_cons.mp listed).resolve_left other, engaged⟩

theorem Familiar.recomputed {listed ns : List ν} (familiar : Familiar g s listed ns)
    (recomputed : Recomputed g s n update t) : Familiar g t listed ns :=
  fun m member way => (familiar m member way).imp_right fun engaged =>
    recomputed.engaged way fun _ => engaged

/-- The first node with a way out that has not been visited before, if there is one. -/
theorem exists_first_fresh (g : Graph ν) (s : Solver ν) (ns : List ν) :
    (∀ n ∈ ns, n ∈ g.ways → Engaged g s n) ∨
      ∃ early x late, ns = early ++ x :: late ∧ x ∈ g.ways ∧ ¬ Engaged g s x ∧
        ∀ n ∈ early, n ∈ g.ways → Engaged g s n := by
  induction ns with
  | nil => exact .inl (by simp)
  | cons n ns ih =>
      by_cases fresh : n ∈ g.ways ∧ ¬ Engaged g s n
      · exact .inr ⟨[], n, ns, rfl, fresh.1, fresh.2, by simp⟩
      · have head : n ∈ g.ways → Engaged g s n := fun way =>
          Classical.byContradiction fun new => fresh ⟨way, new⟩
        rcases ih with all | ⟨early, x, late, rfl, way, new, engaged⟩
        · exact .inl (List.forall_mem_cons.mpr ⟨head, all⟩)
        · exact .inr ⟨n :: early, x, late, rfl, way, new,
            List.forall_mem_cons.mpr ⟨head, engaged⟩⟩

namespace Visits

variable {first : ν → ν → Prop} {ns : List ν} {x : ν} {rest : List ν} {bound : Nat}

/-- Visits up to the first one of a given node, that visit, and the visits behind it. -/
theorem split_at (visits : Visits g first s ns u) (visited : x ∈ ns) :
    ∃ early late begun between update, ns = early ++ x :: late ∧ x ∉ early ∧
      Visits g first s early begun ∧ (∀ m ∈ begun.pending, m ≠ x → first x m) ∧
      Recomputed g begun x update between ∧ Visits g first between late u := by
  obtain ⟨early, late, rfl, notEarly⟩ := List.eq_append_cons_of_mem visited
  obtain ⟨begun, before, onward⟩ := visits.split
  cases onward with
  | visit _ chosen stepped after =>
      exact ⟨early, late, begun, _, _, rfl, notEarly, before, chosen, step_recomputed stepped, after⟩

section

variable (asymm : ∀ n m, first n m → ¬ first m n) (last : ∀ m ∈ rest, first m x)

include asymm last

omit [DecidableEq ν] in
theorem not_pending_of_chosen (chosen : ∀ m ∈ s.pending, m ≠ x → first x m) :
    ∀ m ∈ rest, m ∉ s.pending := by
  intro m listed pending
  have before := last m listed
  have other : m ≠ x := fun same => asymm m x before (same ▸ before)
  exact asymm x m (chosen m pending other) before

variable (way : x ∈ g.ways)
  (few : ∀ {s t : Solver ν} {ns : List ν}, Visits g first s ns t →
    Familiar g s rest ns → wayVisits g ns + 2 ≤ bound)

include way few

/-- A node has been visited with all that goes before it at rest. Then it is visited once more at
most, and behind that visit only exits are left. -/
theorem wayVisits_le_of_visited {begun between : Solver ν}
    (chosen : ∀ m ∈ begun.pending, m ≠ x → first x m)
    (firstVisit : Recomputed g begun x update between) (visits : Visits g first between ns t)
    (familiar : Familiar g begun (x :: rest) ns) : wayVisits g ns + 1 ≤ bound := by
  by_cases again : x ∈ ns
  · obtain ⟨early, late, ended, after, _, rfl, notEarly, before, chosenAgain, secondVisit, onward⟩ :=
      visits.split_at again
    have familiarEarly := familiar.tail (fun n => List.mem_append_left _) notEarly
    have fewEarly := few before (familiarEarly.recomputed firstVisit)
    have atRest : ∀ n ∈ early, n ∈ g.ways → Engaged g begun n ∧ begun.Satisfied g n := by
      intro n member wayN
      obtain ⟨listed, engaged⟩ := familiarEarly n member wayN
      have idle := not_pending_of_chosen asymm last chosen n listed
      exact ⟨engaged, engaged.satisfied_or_pending.resolve_right idle⟩
    have inVain := second_visit way firstVisit before notEarly atRest secondVisit
    -- Nothing that goes before the node is pending at its second visit, and the visit wakes nothing.
    have exits : ∀ n ∈ late, n ∉ g.ways := by
      refine onward.not_mem_ways fun n member wayN still => ?_
      have listed := (familiar n (by simp [member]) wayN).1
      rcases (secondVisit.pending_iff n).mp still with ⟨old, other⟩ | ⟨changed, _⟩
      · have goesBefore := (List.mem_cons.mp listed).resolve_left other
        exact not_pending_of_chosen asymm last chosenAgain n goesBefore old
      · exact changed inVain
    rw [wayVisits_append_cons _ _ way, wayVisits_eq_zero exits]
    omega
  · have fewAll := few visits ((familiar.tail (fun n => id) again).recomputed firstVisit)
    omega

/-- One more node that goes behind the others at most doubles the visits. -/
theorem wayVisits_le_double (visits : Visits g first s ns t)
    (familiar : Familiar g s (x :: rest) ns) : wayVisits g ns + 2 ≤ 2 * bound := by
  by_cases visited : x ∈ ns
  · obtain ⟨early, late, begun, between, _, rfl, notEarly, before, chosen, firstVisit, after⟩ :=
      visits.split_at visited
    have fewEarly := few before (familiar.tail (fun n => List.mem_append_left _) notEarly)
    have familiarLate : Familiar g begun (x :: rest) late := fun n member wayN =>
      (familiar n (by simp [member]) wayN).imp_right (before.engaged wayN)
    have fewLate :=
      wayVisits_le_of_visited asymm last way few chosen firstVisit after familiarLate
    rw [wayVisits_append_cons _ _ way]
    omega
  · have fewAll := few visits (familiar.tail (fun n => id) visited)
    omega

end

variable {ranking : List ν}

/-- Visits of nodes that have been visited before, by induction on how many there are. -/
theorem wayVisits_le (asymm : ∀ n m, first n m → ¬ first m n)
    (ranked : ranking.Pairwise fun n m => first m n) (ways : ∀ n ∈ ranking, n ∈ g.ways)
    (visits : Visits g first s ns t) (familiar : Familiar g s ranking ns) :
    wayVisits g ns + 2 ≤ 2 ^ (ranking.length + 1) := by
  induction ranking generalizing s ns t with
  | nil =>
      have exits : ∀ n ∈ ns, n ∉ g.ways := fun n member way => by
        cases (familiar n member way).1
      simp [wayVisits_eq_zero exits]
  | cons x rest ih =>
      obtain ⟨last, rankedRest⟩ := List.pairwise_cons.mp ranked
      obtain ⟨way, waysRest⟩ := List.forall_mem_cons.mp ways
      rw [List.length_cons, Nat.pow_succ']
      exact wayVisits_le_double asymm last way (ih rankedRest waysRest) visits familiar

/-- Visits of any nodes. Each first visit of a node may set all the others in motion again. -/
theorem wayVisits_le_of_fresh (asymm : ∀ n m, first n m → ¬ first m n)
    (ranked : ranking.Pairwise fun n m => first m n) (ranks : ∀ n, n ∈ ranking ↔ n ∈ g.ways)
    (fresh : List ν) (others : ∀ n ∈ g.ways, n ∈ fresh ∨ Engaged g s n)
    (visits : Visits g first s ns t) :
    wayVisits g ns + 2 ≤ (fresh.length + 1) * 2 ^ (ranking.length + 1) := by
  have fewFamiliar {s t : Solver ν} {ns : List ν} (visits : Visits g first s ns t)
      (engaged : ∀ n ∈ ns, n ∈ g.ways → Engaged g s n) :
      wayVisits g ns + 2 ≤ 2 ^ (ranking.length + 1) :=
    visits.wayVisits_le asymm ranked (fun n => (ranks n).mp)
      fun n member way => ⟨(ranks n).mpr way, engaged n member way⟩
  generalize 2 ^ (ranking.length + 1) = few at fewFamiliar ⊢
  induction size : fresh.length generalizing s ns t fresh with
  | zero =>
      rw [List.length_eq_zero_iff.mp size] at others
      have fewAll := fewFamiliar visits fun n _ way => (others n way).resolve_left List.not_mem_nil
      omega
  | succ count ih =>
      rw [Nat.succ_mul]
      rcases exists_first_fresh g s ns with
        engaged | ⟨early, x, late, rfl, way, new, engaged⟩
      · have fewAll := fewFamiliar visits engaged
        omega
      · -- Up to the first new node all visits are familiar, and behind it one node fewer is new.
        obtain ⟨begun, before, onward⟩ := visits.split
        cases onward with
        | @visit _ between _ _ _ _ _ _ stepped after =>
            have recomputed := step_recomputed stepped
            have fewEarly := fewFamiliar before engaged
            have listed : x ∈ fresh := (others x way).resolve_right new
            have left : (fresh.erase x).length = count := by
              rw [List.length_erase_of_mem listed, size, Nat.add_sub_cancel]
            have othersLeft : ∀ n ∈ g.ways, n ∈ fresh.erase x ∨ Engaged g between n := by
              intro n wayN
              by_cases same : n = x
              · exact .inr (recomputed.engaged wayN fun other => absurd same other)
              · rcases others n wayN with waiting | known
                · exact .inl ((List.mem_erase_of_ne same).mpr waiting)
                · exact .inr (recomputed.engaged wayN fun _ => before.engaged wayN known)
            have fewLate := ih (fresh.erase x) othersLeft after left
            rw [wayVisits_append_cons _ _ way]
            omega

/-- An exit is pending at the beginning or never, and is visited once at most. -/
theorem exits_pending (visits : Visits g first s ns t) :
    (ns.filter (· ∉ g.ways)).Nodup ∧ ∀ n ∈ ns, n ∉ g.ways → n ∈ s.pending := by
  induction visits with
  | done => simp
  | @visit s t _ n ns _ pending _ stepped _ ih =>
      have recomputed := step_recomputed stepped
      obtain ⟨once, early⟩ := ih
      have waits : ∀ m ∈ ns, m ∉ g.ways → m ∈ s.pending ∧ m ≠ n := by
        intro m member last
        rcases (recomputed.pending_iff m).mp (early m member last) with old | ⟨_, e, listed, _, leaves⟩
        · exact old
        · exact absurd (Graph.mem_ways.mpr fun exit => exit e listed leaves) last
      refine ⟨?_, List.forall_mem_cons.mpr ⟨fun _ => pending, fun m member last =>
        (waits m member last).1⟩⟩
      by_cases way : n ∈ g.ways
      · rwa [List.filter_cons_of_neg (by simpa using way)]
      · rw [List.filter_cons_of_pos (by simpa using way)]
        refine List.nodup_cons.mpr ⟨fun again => ?_, once⟩
        obtain ⟨member, last⟩ := List.mem_filter.mp again
        exact (waits n member way).2 rfl

/-- All visits there can be, one after the other. -/
theorem length_le (asymm : ∀ n m, first n m → ¬ first m n)
    (ranked : ranking.Pairwise fun n m => first m n) (ranks : ∀ n, n ∈ ranking ↔ n ∈ g.ways)
    (visits : Visits g first s ns t) :
    ns.length + 2 ≤ s.pending.size + (g.ways.length + 1) * 2 ^ (ranking.length + 1) := by
  have ways := visits.wayVisits_le_of_fresh asymm ranked ranks g.ways fun n way => .inl way
  obtain ⟨once, pending⟩ := visits.exits_pending
  have exits : (ns.filter (· ∉ g.ways)).length ≤ s.pending.size := by
    refine (once.subperm fun n member => ?_).length_le
    obtain ⟨visited, last⟩ := List.mem_filter.mp member
    exact pending n visited (by simpa using last)
  have parts : ns.length = wayVisits g ns + (ns.filter (· ∉ g.ways)).length := by
    rw [wayVisits, ← List.countP_eq_length_filter, List.length_eq_countP_add_countP (· ∈ g.ways)]
    simp
  omega

end Visits

end Solver

/-- The schedule chooses the pending node that goes before all the others, and any nodes can be put
in a row with the last one in front. -/
structure Schedule.Prioritizes {ν : Type} [Node ν] (schedule : Schedule ν) (first : ν → ν → Prop) :
    Prop where
  asymm : ∀ n m, first n m → ¬ first m n
  chosen : ∀ {number pending n}, schedule.pick number pending = some n →
    ∀ m ∈ pending, m ≠ n → first n m
  ranking : ∀ set : SortedSet ν, ∃ row : List ν, row.Perm set.toList ∧
    row.Pairwise fun n m => first m n

namespace Schedule

variable {ν : Type} [Node ν]

theorem smallest_prioritizes :
    (smallest : Schedule ν).Prioritizes fun n m => compare n m = .lt where
  asymm n m below above := absurd (Std.TransCmp.lt_trans below above) (by simp)
  chosen {_ pending n} picked m member other := by
    obtain ⟨rest, parts⟩ := List.head?_eq_some_iff.mp picked
    have ascending := pending.ascending
    rw [parts] at ascending
    have later : m ∈ rest := by
      rw [← SortedSet.mem_toList, parts] at member
      exact (List.mem_cons.mp member).resolve_left other
    exact List.rel_of_pairwise_cons ascending later
  ranking set := ⟨set.toList.reverse, List.reverse_perm _, List.pairwise_reverse.mpr set.ascending⟩

theorem largest_prioritizes :
    (largest : Schedule ν).Prioritizes fun n m => compare m n = .lt where
  asymm n m below above := absurd (Std.TransCmp.lt_trans below above) (by simp)
  chosen {_ pending n} picked m member other := by
    obtain ⟨rest, parts⟩ := List.getLast?_eq_some_iff.mp picked
    have ascending := pending.ascending
    rw [parts] at ascending
    have earlier : m ∈ rest := by
      rw [← SortedSet.mem_toList, parts] at member
      exact (List.mem_append.mp member).resolve_right (by simpa using other)
    exact (List.pairwise_append.mp ascending).2.2 m earlier n List.mem_cons_self
  ranking set := ⟨set.toList, .refl _, set.ascending⟩

end Schedule

namespace Solver

variable {ν : Type} [DecidableEq ν] [Node ν] {g : Graph ν} {s : Solver ν} {schedule : Schedule ν}
  {first : ν → ν → Prop} {visits number : Nat} {limit : Option Nat}

/-- A run that has used up its visits has made them. -/
theorem exists_visits_of_unfinished (prioritizes : schedule.Prioritizes first)
    (cut : (iterate g schedule visits number limit s).ending = .unfinished) :
    ∃ ns t, ns.length = visits ∧ Visits g first s ns t := by
  fun_induction iterate g schedule visits number limit s with
  | case1 | case2 | case4 => cases cut
  | case3 number limit s => exact ⟨[], s, rfl, .done s⟩
  | case5 number limit s n picked below visits t stepped ih =>
      obtain ⟨ns, u, count, rest⟩ := ih cut
      exact ⟨n :: ns, u, by rw [List.length_cons, count],
        .visit (schedule.pick_mem picked) (prioritizes.chosen picked) stepped rest⟩
  | case6 number limit s n picked below visits update t stepped later ih =>
      obtain ⟨ns, u, count, rest⟩ := ih cut
      exact ⟨n :: ns, u, by rw [List.length_cons, count],
        .visit (schedule.pick_mem picked) (prioritizes.chosen picked) stepped rest⟩

/-- Visits granted beyond those that a run needs make no difference. -/
theorem iterate_add (extra : Nat)
    (ended : (iterate g schedule visits number limit s).ending ≠ .unfinished) :
    iterate g schedule (visits + extra) number limit s =
      iterate g schedule visits number limit s := by
  fun_induction iterate g schedule visits number limit s with
  | case1 visits number limit s none =>
      unfold iterate
      rw [none]
  | case2 visits number s n picked =>
      unfold iterate
      simp only [picked, if_true]
  | case3 => exact absurd rfl ended
  | case4 number limit s n picked below visits failure t failed =>
      rw [Nat.succ_add, iterate]
      simp only [picked, below, if_false, failed]
  | case5 number limit s n picked below visits t stepped ih =>
      rw [Nat.succ_add, iterate]
      simp only [picked, below, if_false, stepped, ih ended]
  | case6 number limit s n picked below visits update t stepped later ih =>
      rw [Nat.succ_add, iterate]
      simp only [picked, below, if_false, stepped, ih ended]
      rfl

theorem isEmpty_of_converged
    (ended : (iterate g schedule visits number limit s).ending = .converged) :
    (iterate g schedule visits number limit s).solver.pending.isEmpty = true := by
  fun_induction iterate g schedule visits number limit s with
  | case1 visits number limit s none => exact schedule.pick_eq_none_iff.mp none
  | case2 | case3 | case4 => cases ended
  | case5 number limit s n picked below visits t stepped ih => exact ih ended
  | case6 number limit s n picked below visits update t stepped later ih => exact ih ended

/-- The run comes to an end after finitely many visits, and more visits make no difference: nothing is
pending, or it was interrupted after as many updates as the limit says, or a visit has failed. -/
def Ends (g : Graph ν) (schedule : Schedule ν) (s : Solver ν) : Prop :=
  ∀ limit, ∃ pops ≤ visitBound g s, ∀ visits ≥ pops,
    let outcome := iterate g schedule visits 0 limit s
    outcome = iterate g schedule pops 0 limit s ∧
    (outcome.ending = .converged ∧ outcome.solver.pending.isEmpty = true ∨
      outcome.ending = .interrupted ∧ limit = some outcome.updates ∨
      ∃ failure, outcome.ending = .failed failure)

theorem Visits.length_lt_visitBound (prioritizes : schedule.Prioritizes first) {ns : List ν}
    {t : Solver ν} (visits : Visits g first s ns t) : ns.length < visitBound g s := by
  obtain ⟨row, perm, ranked⟩ := prioritizes.ranking (.ofList g.ways)
  have ranks (n : ν) : n ∈ row ↔ n ∈ g.ways :=
    perm.mem_iff.trans SortedSet.mem_ofList
  have few := visits.length_le prioritizes.asymm ranked ranks
  have distinct : row.Nodup := perm.nodup_iff.mpr (SortedSet.nodup _)
  have rowShort : row.length ≤ g.ways.length :=
    (distinct.subperm fun n => (ranks n).mp).length_le
  have waysShort : g.ways.length ≤ g.nodes.length := List.length_filter_le ..
  have power : 2 ^ (row.length + 1) ≤ (variableBound g s.analysis + 3) ^ (g.nodes.length + 1) :=
    calc 2 ^ (row.length + 1)
        ≤ 2 ^ (g.nodes.length + 1) := Nat.pow_le_pow_right (by omega) (by omega)
      _ ≤ (variableBound g s.analysis + 3) ^ (g.nodes.length + 1) :=
          Nat.pow_le_pow_left (by omega) _
  have product := Nat.mul_le_mul (Nat.add_le_add_right waysShort 1) power
  have bound : visitBound g s = s.pending.size +
    (g.nodes.length + 1) * (variableBound g s.analysis + 3) ^ (g.nodes.length + 1) := rfl
  omega

theorem ends_of_prioritizes (prioritizes : schedule.Prioritizes first) (g : Graph ν)
    (s : Solver ν) : Ends g schedule s := by
  intro limit
  have finished : (iterate g schedule (visitBound g s) 0 limit s).ending ≠ .unfinished := by
    intro cut
    obtain ⟨ns, t, count, visits⟩ := exists_visits_of_unfinished prioritizes cut
    exact absurd (visits.length_lt_visitBound prioritizes) (by omega)
  refine ⟨visitBound g s, Nat.le_refl _, fun visits enough => ?_⟩
  obtain ⟨extra, rfl⟩ := Nat.exists_eq_add_of_le enough
  rw [iterate_add extra finished]
  refine ⟨rfl, ?_⟩
  cases ended : (iterate g schedule (visitBound g s) 0 limit s).ending with
  | converged => exact .inl ⟨rfl, isEmpty_of_converged ended⟩
  | interrupted => exact .inr (.inl ⟨rfl, limit_of_interrupted ended⟩)
  | failed failure => exact .inr (.inr ⟨failure, rfl⟩)
  | unfinished => exact absurd ended finished

/-- From any live sets and with any nodes pending, a run that always visits the smallest pending node
ends, and so does one that always visits the largest. -/
theorem ordered_runs_end (g : Graph ν) (s : Solver ν) : Ends g .smallest s ∧ Ends g .largest s :=
  ⟨ends_of_prioritizes Schedule.smallest_prioritizes g s,
    ends_of_prioritizes Schedule.largest_prioritizes g s⟩

end Solver

end Deadwood
