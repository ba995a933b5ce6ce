import Deadwood.Proofs.Equations

namespace Deadwood

/-!
The direction in which live sets change. Where nodes that were at rest are visited because another one
has changed, then for each variable they follow that change: where the variable came it can only come,
and where it went it can only go. So visiting the first node again finds nothing new. This holds from
any live sets, since each variable is asked for on its own.
-/

/-- From the first statement to the second truth is only gained, or only lost. -/
def Tends : Bool → Prop → Prop → Prop
  | true, p, q => p → q
  | false, p, q => q → p

namespace Tends

variable {rising : Bool} {p q r : Prop}

theorem of_iff (same : p ↔ q) : Tends rising p q := by
  cases rising
  · exact same.mpr
  · exact same.mp

theorem trans (first : Tends rising p q) (second : Tends rising q r) : Tends rising p r := by
  cases rising
  · exact fun last => first (second last)
  · exact fun given => second (first given)

theorem exists_mem {α : Type} {xs : List α} {P Q : α → Prop}
    (each : ∀ x ∈ xs, Tends rising (P x) (Q x)) :
    Tends rising (∃ x ∈ xs, P x) (∃ x ∈ xs, Q x) := by
  cases rising
  · exact fun ⟨x, member, holds⟩ => ⟨x, member, each x member holds⟩
  · exact fun ⟨x, member, holds⟩ => ⟨x, member, each x member holds⟩

theorem gen_or_through {gen kill : Prop} (through : Tends rising p q) :
    Tends rising (gen ∨ p ∧ ¬ kill) (gen ∨ q ∧ ¬ kill) := by
  cases rising
  · exact Or.imp_right (And.imp_left through)
  · exact Or.imp_right (And.imp_left through)

end Tends

namespace Solver

variable {ν : Type} [DecidableEq ν] {g : Graph ν} {a b : Analysis} {live other : LiveMap ν}
  {n m : ν} {id : Nat} {rising : Bool}

def Holds (live : LiveMap ν) (n : ν) (id : Nat) : Prop := ∃ set, live.get? n = some set ∧ id ∈ set

/-- The variable is live before an edge out of the node. -/
def Wants (g : Graph ν) (a : Analysis) (live : LiveMap ν) (n : ν) (id : Nat) : Prop :=
  ∃ e ∈ g.outgoing n, Asks a live e id

theorem holds_congr (same : other.get? n = live.get? n) : Holds other n id ↔ Holds live n id := by
  simp only [Holds, same]

theorem holds_iff_of_get? {set : VarSet} (found : live.get? n = some set) :
    Holds live n id ↔ id ∈ set := by
  simp [Holds, found]

theorem asks_iff {e : Edge ν} {effects : Effects}
    (remembered : a.memo.lookup e.statement = some effects)
    (known : (live.get? e.target).isSome = true) :
    Asks a live e id ↔ id ∈ effects.gen ∨ Holds live e.target id ∧ ¬ id ∈ effects.kill := by
  obtain ⟨behind, found⟩ := Option.isSome_iff_exists.mp known
  rw [holds_iff_of_get? found]
  simp only [Asks, before_of_recalled remembered found, Except.ok.injEq, exists_eq_left',
    Effects.apply, VarSet.mem_union, VarSet.mem_diff]
  exact or_comm

/-- What a node wants follows the live sets, in either direction. -/
theorem wants_tends (remembered : ∀ e ∈ g.outgoing n, Remembered a e) (recalls : a.Recalls b)
    (known : ∀ e ∈ g.outgoing n, (live.get? e.target).isSome = true)
    (knownAfter : ∀ e ∈ g.outgoing n, (other.get? e.target).isSome = true)
    (tends : ∀ m, Tends rising (Holds live m id) (Holds other m id)) :
    Tends rising (Wants g a live n id) (Wants g b other n id) := by
  refine Tends.exists_mem fun e member => ?_
  obtain ⟨effects, here⟩ := remembered e member
  rw [asks_iff here (known e member), asks_iff (recalls _ _ here) (knownAfter e member)]
  exact (tends e.target).gen_or_through

variable [Node ν] {s t u : Solver ν} {update : Option (Update ν)}

/-- The node has been visited: what its edges do is remembered, and it is at rest or pending. -/
structure Engaged (g : Graph ν) (s : Solver ν) (n : ν) : Prop where
  remembered : ∀ e ∈ g.outgoing n, Remembered s.analysis e
  known : ∀ e ∈ g.outgoing n, (s.live.get? e.target).isSome = true
  satisfied_or_pending : s.Satisfied g n ∨ n ∈ s.pending

namespace Recomputed

theorem holds_iff (recomputed : Recomputed g s n update t) (way : n ∈ g.ways) :
    Holds t.live n id ↔ Wants g t.analysis s.live n id := by
  obtain ⟨after, here, joins⟩ := recomputed.way way
  rw [holds_iff_of_get? here, joins.mem_iff, Wants]

theorem known_targets (recomputed : Recomputed g s n update t) (way : n ∈ g.ways) :
    ∀ e ∈ g.outgoing n, (s.live.get? e.target).isSome = true := by
  obtain ⟨_, _, joins⟩ := recomputed.way way
  intro e member
  obtain ⟨out, told⟩ := joins.told e member
  exact isSome_of_before_eq_ok told

theorem engaged (recomputed : Recomputed g s n update t) (way : m ∈ g.ways)
    (engaged : m ≠ n → Engaged g s m) : Engaged g t m := by
  by_cases same : m = n
  · subst same
    exact ⟨recomputed.remembered, fun e member =>
      recomputed.known (recomputed.known_targets way e member),
      recomputed.satisfied_or_pending way (.inl rfl)⟩
  · obtain ⟨remembered, known, balanced⟩ := engaged same
    have later : ∀ e ∈ g.outgoing m, Remembered t.analysis e := fun e member =>
      (remembered e member).imp fun _ here => recomputed.recalls _ _ here
    refine ⟨later, fun e member => recomputed.known (known e member), ?_⟩
    refine recomputed.satisfied_or_pending way (.inr (balanced.imp_left ?_))
    rintro ⟨set, found, joins⟩
    exact ⟨set, found, joins.congr fun e member =>
      (remembered e member).before_eq recomputed.recalls (known e member)⟩

end Recomputed

/-- In so far as the node does not have what it wants, a visit changes it in the given direction. -/
def Leans (rising : Bool) (g : Graph ν) (s : Solver ν) (id : Nat) (n : ν) : Prop :=
  Tends rising (Holds s.live n id) (Wants g s.analysis s.live n id)

theorem Recomputed.tends (recomputed : Recomputed g s n update t)
    (ready : n ∈ g.ways → Engaged g s n ∧ Leans rising g s id n) (m : ν) :
    Tends rising (Holds s.live m id) (Holds t.live m id) := by
  by_cases same : m = n
  · subst same
    by_cases way : m ∈ g.ways
    · obtain ⟨engaged, leans⟩ := ready way
      rw [recomputed.holds_iff way]
      exact leans.trans (wants_tends engaged.remembered recomputed.recalls engaged.known
        engaged.known fun _ => .of_iff Iff.rfl)
    · exact .of_iff (holds_congr (recomputed.exit way)).symm
  · exact .of_iff (holds_congr (recomputed.elsewhere m same)).symm

theorem Recomputed.leans (recomputed : Recomputed g s n update t)
    (ready : n ∈ g.ways → Engaged g s n ∧ Leans rising g s id n) (way : m ∈ g.ways)
    (engaged : Engaged g s m) (leans : Leans rising g s id m) : Leans rising g t id m := by
  have moved := recomputed.tends ready
  by_cases same : m = n
  · subst same
    rw [Leans, recomputed.holds_iff way]
    exact wants_tends recomputed.remembered (.refl _) engaged.known
      (fun e member => recomputed.known (engaged.known e member)) moved
  · rw [Leans, holds_congr (recomputed.elsewhere m same)]
    exact leans.trans (wants_tends engaged.remembered recomputed.recalls engaged.known
      (fun e member => recomputed.known (engaged.known e member)) moved)

/-- Visits that succeed, one after the other, each of the pending node that goes before all others. -/
inductive Visits (g : Graph ν) (first : ν → ν → Prop) : Solver ν → List ν → Solver ν → Prop
  | done (s : Solver ν) : Visits g first s [] s
  | visit {s t u : Solver ν} {n : ν} {ns : List ν} {update : Option (Update ν)}
      (pending : n ∈ s.pending) (chosen : ∀ m ∈ s.pending, m ≠ n → first n m)
      (stepped : s.step g n = (.ok update, t)) (rest : Visits g first t ns u) :
      Visits g first s (n :: ns) u

namespace Visits

variable {first : ν → ν → Prop} {ns ms : List ν}

theorem split (visits : Visits g first s (ns ++ ms) u) :
    ∃ t, Visits g first s ns t ∧ Visits g first t ms u := by
  induction ns generalizing s with
  | nil => exact ⟨s, .done s, visits⟩
  | cons n ns ih =>
      cases visits with
      | visit pending chosen stepped rest =>
          obtain ⟨t, before, after⟩ := ih rest
          exact ⟨t, .visit pending chosen stepped before, after⟩

theorem recalls (visits : Visits g first s ns t) : s.analysis.Recalls t.analysis := by
  induction visits with
  | done => exact .refl _
  | visit _ _ stepped _ ih => exact (step_recomputed stepped).recalls.trans ih

theorem get?_eq (visits : Visits g first s ns t) (apart : n ∉ ns) :
    t.live.get? n = s.live.get? n := by
  induction visits with
  | done => rfl
  | visit _ _ stepped _ ih =>
      have kept := (step_recomputed stepped).elsewhere n (List.ne_of_not_mem_cons apart)
      exact (ih (List.not_mem_of_not_mem_cons apart)).trans kept

theorem engaged (visits : Visits g first s ns t) (way : n ∈ g.ways) (engaged : Engaged g s n) :
    Engaged g t n := by
  induction visits with
  | done => exact engaged
  | visit _ _ stepped _ ih => exact ih ((step_recomputed stepped).engaged way fun _ => engaged)

/-- Where all the nodes lean in one direction, this is the direction that live sets change in. -/
theorem tends (visits : Visits g first s ns t)
    (ready : ∀ n ∈ ns, n ∈ g.ways → Engaged g s n ∧ Leans rising g s id n) (m : ν) :
    Tends rising (Holds s.live m id) (Holds t.live m id) := by
  induction visits with
  | done => exact .of_iff Iff.rfl
  | visit _ _ stepped _ ih =>
      have recomputed := step_recomputed stepped
      obtain ⟨head, tail⟩ := List.forall_mem_cons.mp ready
      have after := ih fun n member way => by
        obtain ⟨engaged, leans⟩ := tail n member way
        exact ⟨recomputed.engaged way fun _ => engaged, recomputed.leans head way engaged leans⟩
      exact (recomputed.tends head m).trans after

/-- While only exits are pending among the nodes to come, only exits come. -/
theorem not_mem_ways (visits : Visits g first s ns t)
    (idle : ∀ n ∈ ns, n ∈ g.ways → n ∉ s.pending) : ∀ n ∈ ns, n ∉ g.ways := by
  induction visits with
  | done => simp
  | visit pending _ stepped _ ih =>
      have recomputed := step_recomputed stepped
      obtain ⟨head, tail⟩ := List.forall_mem_cons.mp idle
      have last : _ ∉ g.ways := fun way => head way pending
      refine List.forall_mem_cons.mpr ⟨last, ih fun m member way still => ?_⟩
      rcases (recomputed.pending_iff m).mp still with ⟨old, _⟩ | ⟨changed, _⟩
      · exact tail m member way old
      · exact changed (recomputed.exit last)

end Visits

/-- A node is visited in vain a second time if the nodes visited in between were at rest when it was
visited first. -/
theorem second_visit {first : ν → ν → Prop} {ns : List ν} {x : ν} {begun between ended after : Solver ν}
    {update again : Option (Update ν)} (way : x ∈ g.ways)
    (firstVisit : Recomputed g begun x update between)
    (visits : Visits g first between ns ended) (apart : x ∉ ns)
    (atRest : ∀ n ∈ ns, n ∈ g.ways → Engaged g begun n ∧ begun.Satisfied g n)
    (secondVisit : Recomputed g ended x again after) :
    after.live.get? x = ended.live.get? x := by
  obtain ⟨set, here, joins⟩ := firstVisit.way way
  obtain ⟨computed, there, joinsAgain⟩ := secondVisit.way way
  -- For each variable the nodes lean to where the first visit of `x` went.
  have follows (id : Nat) (rising : Bool)
      (toward : Tends rising (Holds begun.live x id) (Holds between.live x id)) :
      Tends rising (id ∈ set) (id ∈ computed) := by
    have start (m : ν) : Tends rising (Holds begun.live m id) (Holds between.live m id) := by
      by_cases same : m = x
      · exact same ▸ toward
      · exact .of_iff (holds_congr (firstVisit.elsewhere m same)).symm
    have ready : ∀ n ∈ ns, n ∈ g.ways → Engaged g between n ∧ Leans rising g between id n := by
      intro n member wayN
      obtain ⟨engaged, found, held, joinsN⟩ := atRest n member wayN
      have other : n ≠ x := fun same => apart (same ▸ member)
      have had : Holds between.live n id ↔ Wants g begun.analysis begun.live n id := by
        rw [holds_congr (firstVisit.elsewhere n other), holds_iff_of_get? held, joinsN.mem_iff,
          Wants]
      refine ⟨firstVisit.engaged wayN fun _ => engaged, ?_⟩
      rw [Leans, had]
      exact wants_tends engaged.remembered firstVisit.recalls engaged.known
        (fun e out => firstVisit.known (engaged.known e out)) start
    rw [joins.mem_iff, joinsAgain.mem_iff]
    exact wants_tends firstVisit.remembered (visits.recalls.trans secondVisit.recalls)
      (firstVisit.known_targets way) (secondVisit.known_targets way)
      fun m => (start m).trans (visits.tends ready m)
  have same : computed = set := by
    refine VarSet.ext fun id => ?_
    have held : Holds between.live x id ↔ id ∈ set := holds_iff_of_get? here
    by_cases member : id ∈ set
    · exact iff_of_true (follows id true (fun _ => held.mpr member) member) member
    · refine iff_of_false (fun found => member ?_) member
      exact follows id false (fun still => absurd (held.mp still) member) found
  rw [there, visits.get?_eq apart, here, same]

end Solver

end Deadwood
