import Deadwood.Liveness.Solver
import Deadwood.Proofs.Construction

namespace Deadwood

/-!
What one visit of the worklist does to the names that are live, and the invariant that every visit
keeps when the worklist was started from a seed: live sets lie below the path property, and a node
that is not pending has all that its edges ask for.
-/

variable {ν : Type}

def Graph.IsNative (g : Graph ν) : Prop := ∀ e ∈ g.edges, e.statement.IsNative

theorem Graph.IsNative.outgoing [DecidableEq ν] {g : Graph ν} (native : g.IsNative) (n : ν) :
    ∀ e ∈ g.outgoing n, e.statement.IsNative :=
  fun e member => native e (Graph.mem_outgoing.mp member).1

namespace Solver

variable [DecidableEq ν] {a b : Analysis} {live : LiveMap ν} {n : ν} {v : String}

def LiveIn (a : Analysis) (live : LiveMap ν) (n : ν) (v : String) : Prop :=
  ∃ set, live.get? n = some set ∧ a.isLive set v = true

/-- One of some edges makes the variable live, or lets it through from its target. -/
def Demanded (a : Analysis) (live : LiveMap ν) (es : List (Edge ν)) (v : String) : Prop :=
  ∃ e ∈ es, a.architecture.Gens e.statement v ∨
    ¬ a.architecture.Kills e.statement v ∧ LiveIn a live e.target v

def Bounded (a : Analysis) (live : LiveMap ν) : Prop :=
  ∀ n set, live.get? n = some set → a.table.Bounds set

theorem Bounded.mono (bounded : Bounded a live) (grown : a.GrowsTo b) : Bounded b live :=
  fun n set found => (bounded n set found).mono grown.table

theorem Bounded.liveIn_iff (bounded : Bounded a live) (grown : a.GrowsTo b) :
    LiveIn b live n v ↔ LiveIn a live n v := by
  constructor
  · intro given
    obtain ⟨set, found, holds⟩ := given
    exact ⟨set, found, (grown.isLive_iff (bounded n set found) v).mp holds⟩
  · intro given
    obtain ⟨set, found, holds⟩ := given
    exact ⟨set, found, (grown.isLive_iff (bounded n set found) v).mpr holds⟩

theorem Bounded.demanded_iff (bounded : Bounded a live) (grown : a.GrowsTo b)
    {es : List (Edge ν)} : Demanded b live es v ↔ Demanded a live es v := by
  simp only [Demanded, bounded.liveIn_iff grown, grown.architecture_eq]

theorem before_eq_ok (formed : a.WellFormed) (bounded : Bounded a live) {e : Edge ν}
    (native : e.statement.IsNative) (known : (live.get? e.target).isSome = true) :
    ∃ set b, before a live e = (.ok set, b) ∧ a.GrowsTo b ∧ b.WellFormed ∧ b.table.Bounds set ∧
      ∀ v, b.isLive set v = true ↔ Demanded a live [e] v := by
  obtain ⟨behind, found⟩ := Option.isSome_iff_exists.mp known
  obtain ⟨set, b, moved, grown, formedAfter, boundedSet, liveIff⟩ :=
    a.transfer_eq_ok formed native (bounded e.target behind found)
  refine ⟨set, b, by simp only [before, found, moved], grown, formedAfter, boundedSet, ?_⟩
  intro v
  simp [liveIff, Demanded, LiveIn, found]

theorem beforeAll_eq_ok (formed : a.WellFormed) (bounded : Bounded a live) {e : Edge ν}
    {es : List (Edge ν)} (native : ∀ f ∈ e :: es, f.statement.IsNative)
    (known : ∀ f ∈ e :: es, (live.get? f.target).isSome = true) :
    ∃ set b, beforeAll a live e es = (.ok set, b) ∧ a.GrowsTo b ∧ b.WellFormed ∧
      b.table.Bounds set ∧ ∀ v, b.isLive set v = true ↔ Demanded a live (e :: es) v := by
  obtain ⟨first, b, foundFirst, grown, formedFirst, boundedFirst, firstIff⟩ :=
    before_eq_ok formed bounded (native e List.mem_cons_self) (known e List.mem_cons_self)
  induction es generalizing a b e first with
  | nil => exact ⟨first, b, foundFirst, grown, formedFirst, boundedFirst, firstIff⟩
  | cons f fs ih =>
      have boundedAfter := bounded.mono grown
      have nativeRest := fun d member => native d (List.mem_cons_of_mem _ member)
      have knownRest := fun d member => known d (List.mem_cons_of_mem _ member)
      obtain ⟨next, c, foundNext, grownNext, formedNext, boundedNext, nextIff⟩ :=
        before_eq_ok formedFirst boundedAfter (nativeRest f List.mem_cons_self)
          (knownRest f List.mem_cons_self)
      obtain ⟨rest, d, foundRest, grownRest, formedRest, boundedRest, restIff⟩ :=
        ih formedFirst boundedAfter nativeRest knownRest next c foundNext grownNext formedNext
          boundedNext nextIff
      refine ⟨first ∪ rest, d, by simp only [beforeAll, foundFirst, foundRest],
        grown.trans grownRest, formedRest, (boundedFirst.mono grownRest.table).union boundedRest,
        fun v => ?_⟩
      have kept := grownRest.isLive_iff boundedFirst v
      have later := (restIff v).trans (bounded.demanded_iff grown)
      have now := firstIff v
      simp only [Analysis.isLive] at kept later now ⊢
      rw [Universe.holds_union, kept, now, later]
      simp [Demanded]

variable [Node ν] {g : Graph ν} {s t : Solver ν}

def Live (s : Solver ν) (n : ν) (v : String) : Prop := LiveIn s.analysis s.live n v

def Demands (g : Graph ν) (s : Solver ν) (n : ν) (v : String) : Prop :=
  Demanded s.analysis s.live (g.outgoing n) v

/-- The analysis is in order, the live sets hold known ids, and the nodes of the graph have one. -/
structure Formed (g : Graph ν) (s : Solver ν) : Prop where
  analysis : s.analysis.WellFormed
  bounded : Bounded s.analysis s.live
  keys : ∀ n, (s.live.get? n).isSome = true ↔ n ∈ g.nodes

/-- All that a visit can do: leave the live sets as they are, because the node has no way out or has
what its edges ask for already, or give the node what they ask for and make its predecessors
pending. -/
inductive Visited (g : Graph ν) (s : Solver ν) (n : ν) (t : Solver ν) : Option (Update ν) → Prop
  | kept (live_eq : t.live = s.live) (live_iff : ∀ m v, t.Live m v ↔ s.Live m v)
      (satisfied : ∀ v, IsExit g.edges n ∨ (s.Live n v ↔ s.Demands g n v))
      (pending_eq : t.pending = s.pending.erase n) : Visited g s n t none
  | changed (update : Update ν) (way : ¬ IsExit g.edges n)
      (elsewhere : ∀ m v, m ≠ n → (t.Live m v ↔ s.Live m v))
      (here : ∀ v, t.Live n v ↔ s.Demands g n v)
      (different : ∃ v, ¬ (s.Live n v ↔ s.Demands g n v))
      (pending_iff : ∀ m, m ∈ t.pending ↔
        m ∈ s.pending ∧ m ≠ n ∨ ∃ e ∈ g.edges, e.target = n ∧ e.source = m) :
      Visited g s n t (some update)

theorem exists_not_iff_of_ne {old after : VarSet} (oldBounded : a.table.Bounds old)
    (afterBounded : a.table.Bounds after) (changed : old ≠ after) :
    ∃ v, ¬ (a.isLive old v = true ↔ a.isLive after v = true) := by
  apply Classical.byContradiction
  intro none
  apply changed
  apply Universe.eq_of_holds_iff oldBounded afterBounded
  intro v
  exact Classical.byContradiction fun apart => none ⟨v, apart⟩

theorem step_eq_ok (formed : Formed g s) (native : ∀ e ∈ g.outgoing n, e.statement.IsNative) :
    ∃ update t, s.step g n = (.ok update, t) ∧ Formed g t ∧ s.analysis.GrowsTo t.analysis ∧
      Visited g s n t update := by
  cases ways : g.outgoing n with
  | nil =>
      refine ⟨none, { s with pending := s.pending.erase n }, by simp only [step, visit, ways],
        ⟨formed.analysis, formed.bounded, formed.keys⟩, .refl _, ?_⟩
      exact .kept rfl (fun _ _ => Iff.rfl)
        (fun _ => .inl (Graph.isExit_iff_outgoing.mpr ways)) rfl
  | cons e es =>
      have listed (f : Edge ν) (member : f ∈ e :: es) : f ∈ g.edges ∧ f.source = n :=
        Graph.mem_outgoing.mp (ways ▸ member)
      obtain ⟨after, b, found, grown, formedAfter, afterBounded, afterIff⟩ :=
        beforeAll_eq_ok formed.analysis formed.bounded
          (fun f member => native f (ways ▸ member))
          (fun f member => (formed.keys _).mpr (g.ends_mem f (listed f member).1).2)
      have way : ¬ IsExit g.edges n := fun last =>
        last e (listed e List.mem_cons_self).1 (listed e List.mem_cons_self).2
      have inside : n ∈ g.nodes := by
        obtain ⟨member, rfl⟩ := listed e List.mem_cons_self
        exact (g.ends_mem e member).1
      obtain ⟨old, oldFound⟩ := Option.isSome_iff_exists.mp ((formed.keys n).mpr inside)
      have oldBounded := (formed.bounded n old oldFound).mono grown.table
      have oldIff (v : String) : s.Live n v ↔ b.isLive old v = true := by
        rw [grown.isLive_iff (formed.bounded n old oldFound) v]
        simp [Live, LiveIn, oldFound]
      have demandsIff (v : String) : s.Demands g n v ↔ b.isLive after v = true := by
        rw [afterIff v, Demands, ways]
      by_cases same : old = after
      · refine ⟨none, { s with pending := s.pending.erase n, analysis := b }, ?_,
          ⟨formedAfter, formed.bounded.mono grown, formed.keys⟩, grown, ?_⟩
        · simp only [step, visit, ways, found, oldFound, same, if_true]
        · refine .kept rfl (fun m v => formed.bounded.liveIn_iff grown) (fun v => .inr ?_) rfl
          rw [oldIff, demandsIff, same]
      · have lookup (m : ν) :
            (s.live.insert n after).get? m = if m = n then some after else s.live.get? m :=
          s.live.get?_insert n m after
        refine ⟨some ⟨n, some old, after⟩,
          ⟨b, s.live.insert n after,
            (s.pending.erase n).insertMany ((g.incoming n).map Edge.source)⟩,
          ?_, ⟨formedAfter, ?_, ?_⟩, grown, ?_⟩
        · have changed : ¬ some old = some after := fun equal => same (Option.some.inj equal)
          simp only [step, visit, ways, found, oldFound, if_neg changed]
        · intro m set foundSet
          dsimp only at foundSet ⊢
          rw [lookup] at foundSet
          split at foundSet
          · exact Option.some.inj foundSet ▸ afterBounded
          · exact (formed.bounded m set foundSet).mono grown.table
        · intro m
          dsimp only
          rw [lookup]
          split
          case isTrue atNode => simp [atNode, inside]
          case isFalse => exact formed.keys m
        · refine .changed _ way ?_ ?_ ?_ ?_
          · intro m v apart
            have kept : LiveIn b s.live m v ↔ s.Live m v := formed.bounded.liveIn_iff grown
            rw [← kept]
            simp only [Live, LiveIn, lookup, if_neg apart]
          · intro v
            rw [demandsIff]
            simp only [Live, LiveIn, lookup, if_true, Option.some.injEq, exists_eq_left']
          · obtain ⟨v, apart⟩ := exists_not_iff_of_ne oldBounded afterBounded same
            exact ⟨v, by rwa [oldIff, demandsIff]⟩
          · intro m
            simp only [SortedSet.mem_insertMany, SortedSet.mem_erase, List.mem_map,
              Graph.mem_incoming, and_assoc]

/-- The invariant of a worklist that was started from a seed. -/
structure Sound (g : Graph ν) (s : Solver ν) : Prop extends Formed g s where
  pending_mem : ∀ n ∈ s.pending, n ∈ g.nodes
  exits : ∀ n ∈ g.nodes, IsExit g.edges n →
    ∀ v, s.Live n v ↔ v ∈ s.analysis.architecture.registerNames
  grounded : ∀ n, ¬ IsExit g.edges n → ∀ v, s.Live n v → s.Demands g n v
  settled : ∀ n ∈ g.nodes, ¬ IsExit g.edges n → n ∉ s.pending → ∀ v, s.Demands g n v → s.Live n v
  below : ∀ n v, s.Live n v → LiveAt s.analysis.architecture g.edges n v

theorem seed_sound (g : Graph ν) (formed : a.WellFormed) : Sound g (seed g a) := by
  have value (n : ν) : (seed g a).live.get? n =
      if n ∈ g.nodes then some (if g.outDegree n = 0 then a.registers else ∅) else none :=
    OrderedMap.find?_map _ n g.nodes
  have exitIff (n : ν) : g.outDegree n = 0 ↔ IsExit g.edges n := by
    rw [Graph.isExit_iff_outgoing, Graph.outDegree, List.length_eq_zero_iff]
  have atExit {n : ν} {v : String} (live : (seed g a).Live n v) :
      IsExit g.edges n ∧ v ∈ a.architecture.registerNames := by
    obtain ⟨set, found, holds⟩ := live
    rw [value] at found
    split at found <;> cases found
    split at holds
    case isTrue last => exact ⟨(exitIff n).mp last, (formed.registers_iff v).mp holds⟩
    case isFalse => simp [seed, Analysis.isLive] at holds
  refine ⟨⟨formed, ?_, ?_⟩, ?_, ?_, ?_, ?_, ?_⟩
  · intro n set found
    rw [value] at found
    split at found <;> cases found
    split
    · exact formed.registers_bounded
    · exact .empty _
  · intro n
    rw [value]
    split <;> simp_all
  · exact fun n member => SortedSet.mem_ofList.mp member
  · intro n inside last v
    refine ⟨fun live => (atExit live).2, fun register => ⟨a.registers, ?_, ?_⟩⟩
    · rw [value, if_pos inside, if_pos ((exitIff n).mpr last)]
    · exact (formed.registers_iff v).mpr register
  · exact fun n way v live => absurd (atExit live).1 way
  · exact fun n inside _ settled => absurd (SortedSet.mem_ofList.mpr inside) settled
  · exact fun n v live => .exit (atExit live).1 (atExit live).2

theorem Sound.liveAt_of_demands (sound : Sound g s) {v : String} (demanded : s.Demands g n v) :
    LiveAt s.analysis.architecture g.edges n v := by
  obtain ⟨e, member, reason⟩ := demanded
  obtain ⟨listed, rfl⟩ := Graph.mem_outgoing.mp member
  rcases reason with gens | ⟨kept, live⟩
  · exact .gen listed gens
  · exact .along listed kept (sound.below _ _ live)

/-- Live sets never shrink, since what a node has is demanded of it. -/
theorem Sound.live_mono (sound : Sound g s) {update : Option (Update ν)}
    (visited : Visited g s n t update) {m : ν} {v : String} (live : s.Live m v) : t.Live m v := by
  cases visited with
  | kept _ liveIff => exact (liveIff m v).mpr live
  | changed update way elsewhere here =>
      by_cases same : m = n
      · subst same
        exact (here v).mpr (sound.grounded m way v live)
      · exact (elsewhere m v same).mpr live

theorem demands_mono (sameMachine : t.analysis.architecture = s.analysis.architecture)
    (grows : ∀ m v, s.Live m v → t.Live m v) {m : ν} {v : String} (demanded : s.Demands g m v) :
    t.Demands g m v := by
  obtain ⟨e, member, reason⟩ := demanded
  refine ⟨e, member, ?_⟩
  rw [sameMachine]
  exact reason.imp id fun ⟨kept, live⟩ => ⟨kept, grows _ _ live⟩

theorem Sound.visited (sound : Sound g s) (formed : Formed g t)
    (sameMachine : t.analysis.architecture = s.analysis.architecture)
    {update : Option (Update ν)} (visited : Visited g s n t update) : Sound g t := by
  have grows : ∀ m v, s.Live m v → t.Live m v := fun m v => sound.live_mono visited
  cases visited with
  | kept _ liveIff satisfied pending =>
      have demandsIff (m : ν) (v : String) : t.Demands g m v ↔ s.Demands g m v :=
        ⟨demands_mono sameMachine.symm fun m v => (liveIff m v).mp, demands_mono sameMachine grows⟩
      refine { formed with pending_mem := ?_, exits := ?_, grounded := ?_, settled := ?_, below := ?_ }
      · intro m member
        rw [pending, SortedSet.mem_erase] at member
        exact sound.pending_mem m member.1
      · intro m inside last v
        rw [liveIff, sameMachine]
        exact sound.exits m inside last v
      · intro m way v live
        rw [demandsIff]
        exact sound.grounded m way v ((liveIff m v).mp live)
      · intro m inside way settled v demanded
        rw [demandsIff] at demanded
        rw [liveIff]
        by_cases same : m = n
        · subst same
          exact ((satisfied v).resolve_left way).mpr demanded
        · refine sound.settled m inside way (fun member => settled ?_) v demanded
          rw [pending, SortedSet.mem_erase]
          exact ⟨member, same⟩
      · intro m v live
        rw [sameMachine]
        exact sound.below m v ((liveIff m v).mp live)
  | changed update way elsewhere here _ pendingIff =>
      refine { formed with pending_mem := ?_, exits := ?_, grounded := ?_, settled := ?_, below := ?_ }
      · intro m member
        rcases (pendingIff m).mp member with ⟨old, _⟩ | ⟨e, listed, _, rfl⟩
        · exact sound.pending_mem m old
        · exact (g.ends_mem e listed).1
      · intro m inside last v
        have apart : m ≠ n := fun same => way (same ▸ last)
        rw [elsewhere m v apart, sameMachine]
        exact sound.exits m inside last v
      · intro m wayOut v live
        refine demands_mono sameMachine grows ?_
        by_cases same : m = n
        · subst same
          exact (here v).mp live
        · exact sound.grounded m wayOut v ((elsewhere m v same).mp live)
      · -- An edge to the changed node would have made its source pending, so what the edges of a
        -- settled node demand is what they demanded before.
        intro m inside wayOut settled v demanded
        rw [pendingIff] at settled
        have unchanged : s.Demands g m v := by
          obtain ⟨e, member, reason⟩ := demanded
          obtain ⟨listed, leaves⟩ := Graph.mem_outgoing.mp member
          have apart : e.target ≠ n := fun same => settled (.inr ⟨e, listed, same, leaves⟩)
          refine ⟨e, member, ?_⟩
          rw [← sameMachine]
          exact reason.imp id fun ⟨kept, live⟩ => ⟨kept, (elsewhere _ v apart).mp live⟩
        by_cases same : m = n
        · subst same
          exact (here v).mpr unchanged
        · rw [elsewhere m v same]
          exact sound.settled m inside wayOut (fun old => settled (.inl ⟨old, same⟩)) v unchanged
      · intro m v live
        rw [sameMachine]
        by_cases same : m = n
        · subst same
          exact sound.liveAt_of_demands ((here v).mp live)
        · exact sound.below m v ((elsewhere m v same).mp live)

/-- With nothing pending, the live sets are the path property. -/
theorem Sound.live_iff_liveAt (sound : Sound g s) (done : s.pending.isEmpty = true) {n : ν}
    (inside : n ∈ g.nodes) (v : String) :
    s.Live n v ↔ LiveAt s.analysis.architecture g.edges n v := by
  have idle (m : ν) : m ∉ s.pending := fun member => by
    rw [SortedSet.isEmpty_eq_false_of_mem member] at done
    cases done
  have demandLive {e : Edge ν} (member : e ∈ g.edges) (demanded : s.Demands g e.source v) :
      s.Live e.source v :=
    sound.settled e.source (g.ends_mem e member).1 (fun last => last e member rfl)
      (idle e.source) v demanded
  refine ⟨sound.below n v, fun live => ?_⟩
  refine live.elim (P := fun m => m ∈ g.nodes → s.Live m v) ?_ ?_ ?_ inside
  · exact fun m last register within => (sound.exits m within last v).mpr register
  · intro e member gens _
    exact demandLive member ⟨e, Graph.mem_outgoing.mpr ⟨member, rfl⟩, .inl gens⟩
  · intro e member kept later _
    exact demandLive member ⟨e, Graph.mem_outgoing.mpr ⟨member, rfl⟩,
      .inr ⟨kept, later (g.ends_mem e member).2⟩⟩

end Solver

end Deadwood
