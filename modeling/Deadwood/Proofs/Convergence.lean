import Mathlib.Data.List.ProdSigma
import Deadwood.Architecture.X86
import Deadwood.Proofs.Worklist

namespace Deadwood

/-!
A worklist started from a seed comes to an end whatever it visits first, within the visits granted
to it, and interruptions only put off what is left to do. Main statement: once nothing is pending the
live sets are the path property, so the order of visits does not show.
-/

variable {ν : Type} {g : Graph ν}

/-- The registers, and the variables that statements read. Nothing else is ever live. -/
def Graph.vocabulary (g : Graph ν) (a : Architecture) : List String :=
  a.registerNames ++ g.edges.flatMap fun e => e.statement.reads.toOption.getD []

theorem Graph.mem_vocabulary {a : Architecture} {n : ν} {v : String}
    (live : LiveAt a g.edges n v) : v ∈ g.vocabulary a := by
  rw [vocabulary, List.mem_append]
  rcases live.register_or_gens with register | ⟨e, member, ⟨r, ⟨names, found, read⟩, reason⟩ | call⟩
  · exact .inl register
  · rcases reason with rfl | covers
    · refine .inr (List.mem_flatMap.mpr ⟨e, member, ?_⟩)
      rw [found]
      exact read
    · exact .inl (Architecture.mem_registerNames_of_covers covers).1
  · exact .inl call.2

theorem Graph.mem_nodes_of_way (g : Graph ν) {n : ν} (way : ¬ IsExit g.edges n) : n ∈ g.nodes := by
  simp only [IsExit, not_forall, not_not] at way
  obtain ⟨e, member, rfl⟩ := way
  exact (g.ends_mem e member).1

theorem SortedSet.nodup {α : Type} [Ord α] [Std.LawfulEqOrd α] (s : SortedSet α) :
    s.toList.Nodup :=
  s.ascending.imp fun below same => by simp [same] at below

theorem SortedSet.size_erase_lt {α : Type} [Ord α] [DecidableEq α] {s : SortedSet α} {x : α}
    (member : x ∈ s) : (s.erase x).size < s.size :=
  List.length_filter_lt_length_iff_exists.mpr ⟨x, member, by simp⟩

namespace Solver

theorem length_vocabulary_le (g : Graph ν) (a : Analysis) :
    (g.vocabulary a.architecture).length ≤ variableBound g a := by
  have reads (es : List (Edge ν)) (bound : Nat) :
      bound + (es.flatMap fun e => e.statement.reads.toOption.getD []).length ≤
        es.foldl (fun bound e => bound + ((e.statement.defines.toOption.getD []).length +
          (e.statement.reads.toOption.getD []).length)) bound := by
    induction es generalizing bound with
    | nil => simp
    | cons e es ih =>
        have rest := ih (bound + ((e.statement.defines.toOption.getD []).length +
          (e.statement.reads.toOption.getD []).length))
        rw [List.flatMap_cons, List.length_append, List.foldl_cons]
        omega
  have all := reads g.edges (a.table.size + a.architecture.registers.length)
  rw [Graph.vocabulary, List.length_append, Architecture.registerNames, List.length_map]
  unfold variableBound
  dsimp only
  omega

variable [DecidableEq ν] [Node ν] {s t : Solver ν} {n : ν}

def isLive (s : Solver ν) (n : ν) (v : String) : Bool :=
  (s.live.get? n).any fun set => s.analysis.isLive set v

theorem isLive_iff {v : String} : s.isLive n v = true ↔ s.Live n v := by
  simp [isLive, Live, LiveIn, Option.any_eq_true]

/-- The pairs of a node and a variable that may still become live there. -/
def openFacts (g : Graph ν) (s : Solver ν) : List (ν × String) :=
  (g.nodes ×ˢ g.vocabulary s.analysis.architecture).filter fun fact => !s.isLive fact.1 fact.2

/-- A bound on the visits to come: each fact that becomes live may make every node pending. -/
def effort (g : Graph ν) (s : Solver ν) : Nat :=
  s.pending.size + g.nodes.length * (s.openFacts g).length

theorem length_openFacts_le (g : Graph ν) (s : Solver ν) :
    (s.openFacts g).length ≤
      g.nodes.length * (g.vocabulary s.analysis.architecture).length := by
  rw [← List.length_product]
  exact List.length_filter_le ..

/-- A node whose live set changes gains a variable. -/
theorem Sound.exists_gained (sound : Sound g s) {update : Update ν}
    (visited : Visited g s n t (some update)) :
    ¬ IsExit g.edges n ∧ ∃ v, ¬ s.Live n v ∧ t.Live n v := by
  cases visited with
  | changed update way elsewhere here different =>
      obtain ⟨v, apart⟩ := different
      have demanded : s.Demands g n v :=
        Classical.byContradiction fun none =>
          apart ⟨fun live => sound.grounded n way v live, fun some => absurd some none⟩
      have missing : ¬ s.Live n v := fun live => apart ⟨fun _ => demanded, fun _ => live⟩
      exact ⟨way, v, missing, (here v).mpr demanded⟩

theorem Sound.length_openFacts_lt (sound : Sound g s) (after : Sound g t)
    (sameMachine : t.analysis.architecture = s.analysis.architecture) {update : Update ν}
    (visited : Visited g s n t (some update)) :
    (t.openFacts g).length < (s.openFacts g).length := by
  have grows {m : ν} {v : String} (live : s.Live m v) : t.Live m v := sound.live_mono visited live
  obtain ⟨way, v, missing, gained⟩ := sound.exists_gained visited
  have nested : t.openFacts g = (s.openFacts g).filter fun fact => !t.isLive fact.1 fact.2 := by
    rw [openFacts, openFacts, List.filter_filter, sameMachine]
    apply List.filter_congr
    intro fact _
    cases old : s.isLive fact.1 fact.2 with
    | false => simp
    | true => simp [isLive_iff.mpr (grows (isLive_iff.mp old))]
  rw [nested]
  have inVocabulary : v ∈ g.vocabulary s.analysis.architecture := by
    rw [← sameMachine]
    exact Graph.mem_vocabulary (after.below n v gained)
  have wasOpen : (n, v) ∈ s.openFacts g := by
    apply List.mem_filter.mpr
    refine ⟨List.mem_product.mpr ⟨g.mem_nodes_of_way way, inVocabulary⟩, ?_⟩
    simp [← Bool.not_eq_true, isLive_iff, missing]
  apply List.length_filter_lt_length_iff_exists.mpr
  exact ⟨(n, v), wasOpen, by simp [isLive_iff, gained]⟩

theorem Sound.pending_size_le (sound : Sound g s) : s.pending.size ≤ g.nodes.length :=
  s.pending.nodup.length_le_of_subset sound.pending_mem

theorem Sound.effort_lt (sound : Sound g s) (after : Sound g t)
    (sameMachine : t.analysis.architecture = s.analysis.architecture)
    {update : Option (Update ν)} (visited : Visited g s n t update) (pending : n ∈ s.pending) :
    t.effort g < s.effort g := by
  cases update with
  | none =>
      cases visited with
      | kept _ liveIff _ pendingEq =>
          have smaller := SortedSet.size_erase_lt pending
          have same : t.openFacts g = s.openFacts g := by
            rw [openFacts, openFacts, sameMachine]
            apply List.filter_congr
            intro fact _
            rw [Bool.eq_iff_iff.mpr (isLive_iff.trans ((liveIff _ _).trans isLive_iff.symm))]
          rw [effort, effort, same, pendingEq]
          omega
  | some update =>
      have fewer := sound.length_openFacts_lt after sameMachine visited
      have room := after.pending_size_le
      have occupied : 0 < s.pending.size := List.length_pos_of_mem pending
      have scaled : g.nodes.length * ((t.openFacts g).length + 1) ≤
          g.nodes.length * (s.openFacts g).length := Nat.mul_le_mul_left _ fewer
      rw [Nat.mul_succ] at scaled
      unfold effort
      omega

theorem Sound.step (sound : Sound g s) (native : ∀ e ∈ g.outgoing n, e.statement.IsNative)
    (pending : n ∈ s.pending) {update : Option (Update ν)} (stepped : s.step g n = (.ok update, t)) :
    Sound g t ∧ t.analysis.architecture = s.analysis.architecture ∧ t.effort g < s.effort g := by
  obtain ⟨_, _, found, formed, grown, visited⟩ := step_eq_ok sound.toFormed native
  rw [stepped] at found
  cases found
  have after := sound.visited formed grown.architecture_eq visited
  exact ⟨after, grown.architecture_eq, sound.effort_lt after grown.architecture_eq visited pending⟩

/-- What a series of visits leads to. It fails at nothing, it is interrupted only by a limit, and it
is cut short only if fewer visits were granted than the effort left. -/
structure Continues (g : Graph ν) (s : Solver ν) (visits : Nat) (limit : Option Nat)
    (o : Outcome ν) : Prop where
  sound : Sound g o.solver
  sameMachine : o.solver.analysis.architecture = s.analysis.architecture
  converged : o.ending = .converged → o.solver.pending.isEmpty = true
  interrupted : o.ending = .interrupted → limit ≠ none
  unfailing : ∀ failure, o.ending ≠ .failed failure
  unfinished : o.ending = .unfinished → visits < s.effort g

theorem iterate_continues (native : g.IsNative) (sound : Sound g s) (schedule : Schedule ν)
    (visits number : Nat) (limit : Option Nat) :
    Continues g s visits limit (iterate g schedule visits number limit s) := by
  fun_induction iterate g schedule visits number limit s with
  | case1 visits number limit s none =>
      exact ⟨sound, rfl, fun _ => schedule.pick_eq_none_iff.mp none, by simp, by simp, by simp⟩
  | case2 visits number s n picked =>
      exact ⟨sound, rfl, by simp, by simp, by simp, by simp⟩
  | case3 number limit s n picked below =>
      have occupied : 0 < s.pending.size := List.length_pos_of_mem (schedule.pick_mem picked)
      exact ⟨sound, rfl, by simp, by simp, by simp, fun _ => Nat.lt_add_right _ occupied⟩
  | case4 number limit s n picked below visits failure t failed =>
      obtain ⟨update, u, stepped, _⟩ := step_eq_ok sound.toFormed (native.outgoing n)
      rw [stepped] at failed
      cases failed
  | case5 number limit s n picked below visits t stepped ih =>
      obtain ⟨after, sameMachine, less⟩ :=
        sound.step (native.outgoing n) (schedule.pick_mem picked) stepped
      have rest := ih after
      exact ⟨rest.sound, rest.sameMachine.trans sameMachine, rest.converged, rest.interrupted,
        rest.unfailing, fun cut => Nat.lt_of_le_of_lt (rest.unfinished cut) less⟩
  | case6 number limit s n picked below visits update t stepped rest ih =>
      obtain ⟨after, sameMachine, less⟩ :=
        sound.step (native.outgoing n) (schedule.pick_mem picked) stepped
      have rest := ih after
      exact ⟨rest.sound, rest.sameMachine.trans sameMachine, rest.converged,
        fun ended => by simpa using rest.interrupted ended, rest.unfailing,
        fun cut => Nat.lt_of_le_of_lt (rest.unfinished cut) less⟩

theorem effort_le_visitBound (g : Graph ν) (s : Solver ν) : s.effort g ≤ visitBound g s := by
  have facts := length_openFacts_le g s
  have names := length_vocabulary_le g s.analysis
  unfold effort visitBound
  dsimp only
  generalize variableBound g s.analysis = bound at names ⊢
  generalize g.nodes.length = count at facts ⊢
  have power : count ≤ (bound + 3) ^ count := Nat.le_of_lt (Nat.lt_pow_self (by omega))
  have product : (s.openFacts g).length ≤ (bound + 3) ^ (count + 1) :=
    calc (s.openFacts g).length
        ≤ count * (g.vocabulary s.analysis.architecture).length := facts
      _ ≤ (bound + 3) ^ count * (bound + 3) := Nat.mul_le_mul power (by omega)
      _ = (bound + 3) ^ (count + 1) := (Nat.pow_succ ..).symm
  exact Nat.add_le_add_left (Nat.mul_le_mul (Nat.le_succ count) product) _

/-- With as many visits as the effort asks for, only a limit keeps a run from its end. -/
theorem Sound.iterate_ends (sound : Sound g s) (native : g.IsNative) (schedule : Schedule ν)
    {visits : Nat} (enough : s.effort g ≤ visits) (number : Nat) (limit : Option Nat) :
    (iterate g schedule visits number limit s).ending = .converged ∨
      (iterate g schedule visits number limit s).ending = .interrupted := by
  have continues := iterate_continues native sound schedule visits number limit
  cases ending : (iterate g schedule visits number limit s).ending with
  | converged => exact .inl rfl
  | interrupted => exact .inr rfl
  | failed failure => exact absurd ending (continues.unfailing failure)
  | unfinished =>
      have cut := continues.unfinished ending
      omega

theorem Sound.run_ends (sound : Sound g s) (native : g.IsNative) (schedule : Schedule ν)
    (limit : Option Nat) :
    (s.run g schedule limit).ending = .converged ∨
      (s.run g schedule limit).ending = .interrupted :=
  sound.iterate_ends native schedule (effort_le_visitBound g s) 0 limit

theorem Sound.run_converged (sound : Sound g s) (native : g.IsNative) (schedule : Schedule ν) :
    (s.run g schedule none).ending = .converged ∧ Sound g (s.run g schedule none).solver ∧
      (s.run g schedule none).solver.analysis.architecture = s.analysis.architecture ∧
      (s.run g schedule none).solver.pending.isEmpty = true := by
  have continues := iterate_continues native sound schedule (visitBound g s) 0 none
  have ended : (s.run g schedule none).ending = .converged :=
    (sound.run_ends native schedule none).resolve_right fun cut =>
      continues.interrupted cut rfl
  exact ⟨ended, continues.sound, continues.sameMachine, continues.converged ended⟩

/-- The states that runs can leave behind which take up, one after the other, what the one before
left. Each has its own order of visits, and may be stopped after any visit. -/
inductive Resumed (g : Graph ν) (start : Solver ν) : Solver ν → Prop
  | start : Resumed g start start
  | run {s : Solver ν} (before : Resumed g start s) (schedule : Schedule ν) (visits number : Nat)
      (limit : Option Nat) : Resumed g start (iterate g schedule visits number limit s).solver

theorem Resumed.sound (resumed : Resumed g s t) (native : g.IsNative) (sound : Sound g s) :
    Sound g t ∧ t.analysis.architecture = s.analysis.architecture := by
  induction resumed with
  | start => exact ⟨sound, rfl⟩
  | run _ schedule visits number limit ih =>
      have rest := iterate_continues native ih.1 schedule visits number limit
      exact ⟨rest.sound, rest.sameMachine.trans ih.2⟩

theorem mem_names_iff {names : NameSet} (found : s.names n = some names) (v : String) :
    v ∈ names ↔ s.Live n v := by
  obtain ⟨set, there, rfl⟩ := Option.map_eq_some_iff.mp found
  simp [Analysis.names, Universe.mem_names, Live, LiveIn, there, Analysis.isLive]

/-- Live sets are known at the ends of the edges, and only there, and hold what is live by the path
property. -/
structure IsLiveness (a : Architecture) (edges : List (Edge ν)) (s : Solver ν) : Prop where
  keys : ∀ n, n ∈ s.live.keys ↔ ∃ e ∈ edges, n = e.source ∨ n = e.target
  names : ∀ n names, s.names n = some names → ∀ v, v ∈ names ↔ LiveAt a edges n v

theorem IsLiveness.names_eq {a : Architecture} {edges : List (Edge ν)} (left : IsLiveness a edges s)
    (right : IsLiveness a edges t) (n : ν) : s.names n = t.names n := by
  have known : (s.live.get? n).isSome = (t.live.get? n).isSome := by
    rw [Bool.eq_iff_iff, ← OrderedMap.mem_keys, ← OrderedMap.mem_keys, left.keys, right.keys]
  cases foundLeft : s.live.get? n with
  | none =>
      rw [foundLeft, Option.isSome_none, eq_comm, Option.isSome_eq_false_iff,
        Option.isNone_iff_eq_none] at known
      simp only [Solver.names, foundLeft, known, Option.map_none]
  | some set =>
      rw [foundLeft, Option.isSome_some, eq_comm, Option.isSome_iff_exists] at known
      obtain ⟨other, foundRight⟩ := known
      have leftNames : s.names n = some (s.analysis.names set) := by
        simp only [Solver.names, foundLeft, Option.map_some]
      have rightNames : t.names n = some (t.analysis.names other) := by
        simp only [Solver.names, foundRight, Option.map_some]
      rw [leftNames, rightNames]
      apply congrArg some
      apply SortedSet.ext
      intro v
      rw [left.names n _ leftNames, right.names n _ rightNames]

theorem Sound.isLiveness {a : Architecture} {edges : List (Edge ν)}
    (identified : Edge.Identified edges) (sound : Sound (.ofEdges edges) s)
    (machine : s.analysis.architecture = a) (done : s.pending.isEmpty = true) :
    IsLiveness a edges s := by
  have forth : HaveCopies (Graph.ofEdges edges).edges edges :=
    Edge.haveCopies_of_subset fun _ => (Graph.mem_edges_ofEdges identified).mp
  have back : HaveCopies edges (Graph.ofEdges edges).edges :=
    Edge.haveCopies_of_subset fun _ => (Graph.mem_edges_ofEdges identified).mpr
  refine ⟨fun n => ?_, fun n names found v => ?_⟩
  · rw [OrderedMap.mem_keys, sound.keys, Graph.mem_nodes_ofEdges identified]
  · have inside : n ∈ (Graph.ofEdges edges).nodes := by
      obtain ⟨set, there, _⟩ := Option.map_eq_some_iff.mp found
      exact (sound.keys n).mp (by rw [there]; rfl)
    rw [mem_names_iff found, sound.live_iff_liveAt done inside, machine, forth.liveAt_iff back]

theorem IsLiveness.of_copies {a : Architecture} {edges others : List (Edge ν)}
    (computed : IsLiveness a edges s) (there : HaveCopies edges others)
    (back : HaveCopies others edges) : IsLiveness a others s := by
  refine ⟨fun n => ?_, fun n names found v => ?_⟩
  · rw [computed.keys]
    have ends {es fs : List (Edge ν)} (copies : HaveCopies es fs) :
        (∃ e ∈ es, n = e.source ∨ n = e.target) → ∃ e ∈ fs, n = e.source ∨ n = e.target := by
      intro given
      obtain ⟨e, member, isEnd⟩ := given
      obtain ⟨f, listed, copy⟩ := copies e member
      obtain ⟨source, target, _⟩ := Edge.isCopy_iff.mp copy
      exact ⟨f, listed, source ▸ target ▸ isEnd⟩
    exact ⟨ends there, ends back⟩
  · rw [computed.names n names found, there.liveAt_iff back]

/-- Leaving copies of edges out does not show in the liveness that a run computes. -/
theorem run_arranged (a : Architecture) {edges : List (Edge ν)}
    (identified : Edge.Identified edges) (native : ∀ e ∈ edges, e.statement.IsNative)
    (schedule : Schedule ν) :
    let g := Graph.ofEdges (Edge.arrange edges)
    let outcome := (seed g (.ofArchitecture a)).run g schedule none
    outcome.ending = .converged ∧ IsLiveness a edges outcome.solver := by
  intro g outcome
  have nativeGraph : g.IsNative := fun e member =>
    native e (Edge.mem_of_mem_arrange ((Graph.mem_edges_ofEdges identified.arrange).mp member))
  obtain ⟨ended, sound, sameMachine, done⟩ :=
    (seed_sound g (Analysis.ofArchitecture_wellFormed a)).run_converged nativeGraph schedule
  have arranged : IsLiveness a (Edge.arrange edges) outcome.solver :=
    sound.isLiveness identified.arrange sameMachine done
  exact ⟨ended, arranged.of_copies (Edge.arrange_haveCopies edges) (Edge.haveCopies_arrange edges)⟩

theorem isLiveness_liveness (a : Architecture) {edges : List (Edge ν)}
    (identified : Edge.Identified edges) (native : ∀ e ∈ edges, e.statement.IsNative) :
    IsLiveness a edges (liveness a edges).solver :=
  (run_arranged a identified native .smallest).2

/-- Liveness is the path property. A worklist that was seeded over some edges, and then visited in
any order and interrupted any number of times, has computed it as soon as nothing is pending; one
that is left alone gets there; and the order of visits does not show. -/
theorem settled_names_iff_liveAt (a : Architecture) {edges : List (Edge ν)}
    (identified : Edge.Identified edges) (native : ∀ e ∈ edges, e.statement.IsNative) :
    (∀ s, Resumed (.ofEdges edges) (seed (.ofEdges edges) (.ofArchitecture a)) s →
      (s.pending.isEmpty = true → IsLiveness a edges s) ∧
      ∀ schedule, (s.run (.ofEdges edges) schedule none).ending = .converged) ∧
    ∀ schedule : Schedule ν,
      let g := Graph.ofEdges (Edge.arrange edges)
      let outcome := (seed g (.ofArchitecture a)).run g schedule none
      outcome.ending = .converged ∧ IsLiveness a edges outcome.solver ∧
        ∀ n, outcome.solver.names n = (liveness a edges).solver.names n := by
  have formed := Analysis.ofArchitecture_wellFormed a
  constructor
  · intro s resumed
    have nativeGraph : (Graph.ofEdges edges).IsNative := fun e member =>
      native e ((Graph.mem_edges_ofEdges identified).mp member)
    obtain ⟨sound, sameMachine⟩ := resumed.sound nativeGraph (seed_sound _ formed)
    refine ⟨fun done => ?_, fun schedule => (sound.run_converged nativeGraph schedule).1⟩
    exact sound.isLiveness identified sameMachine done
  · intro schedule
    obtain ⟨ended, computed⟩ := run_arranged a identified native schedule
    exact ⟨ended, computed, computed.names_eq (isLiveness_liveness a identified native)⟩

/-- A loop whose body reads what it defines, and an unknown procedure behind it. -/
def countdown : List (Edge Location) :=
  [⟨0, ⟨0x1000, 0⟩, ⟨0x1001, 0⟩, .assign "ecx" (.binary "-" (.var "ecx") (.const 1 32))⟩,
   ⟨1, ⟨0x1001, 0⟩, ⟨0x1000, 0⟩, .assume (.var "ecx") .ordinary⟩,
   ⟨2, ⟨0x1001, 0⟩, ⟨0x1002, 0⟩, .call (.ofList ["eax"])⟩]

theorem countdown_names_iff_liveAt :
    Edge.Identified countdown ∧ (∀ e ∈ countdown, e.statement.IsNative) ∧
      (∀ s, Resumed (.ofEdges countdown) (seed (.ofEdges countdown) (.ofArchitecture .x86)) s →
        s.pending.isEmpty = true → IsLiveness .x86 countdown s) ∧
      ∀ n, ((seed (.ofEdges (Edge.arrange countdown)) (.ofArchitecture .x86)).run
        (.ofEdges (Edge.arrange countdown)) .largest none).solver.names n =
          (liveness .x86 countdown).solver.names n := by
  have identified : Edge.Identified countdown := by decide +kernel
  have native : ∀ e ∈ countdown, e.statement.IsNative := by decide +kernel
  obtain ⟨settled, ordered⟩ := settled_names_iff_liveAt .x86 identified native
  exact ⟨identified, native, fun s resumed => (settled s resumed).1, (ordered .largest).2.2⟩

end Solver

end Deadwood
