import Deadwood.Architecture.X86
import Deadwood.Elimination.Verdict
import Deadwood.Proofs.Recomputation

namespace Deadwood

/-!
Live sets and registers that overlap. A set is closed if it holds, with each variable, every register
that contains it. Main statement: transfer keeps sets closed, and a worklist started from a seed has
closed sets at every moment, so no write to a register is found dead while a part of it is live.
-/

namespace Analysis

variable {a b : Analysis} {live : VarSet} {s : Statement} {e : Effects}

def Closed (a : Analysis) (live : VarSet) : Prop :=
  ∀ part, a.isLive live part = true →
    ∀ wide ∈ a.architecture.covering part, a.isLive live wide = true

theorem Closed.mono (closed : a.Closed live) (bounded : a.table.Bounds live)
    (grown : a.GrowsTo b) : b.Closed live := by
  intro part isLive wide covers
  rw [grown.architecture_eq] at covers
  have before := (grown.isLive_iff bounded part).mp isLive
  exact (grown.isLive_iff bounded wide).mpr (closed part before wide covers)

theorem closed_bottom (a : Analysis) : a.Closed bottom := by
  intro part isLive
  simp [Analysis.isLive, bottom] at isLive

theorem WellFormed.closed_atExit (wellFormed : a.WellFormed) : a.Closed a.atExit := by
  intro part _ wide covers
  have contains := Architecture.mem_registerNames_of_covers (Coverage.mem_above.mp covers)
  exact (wellFormed.registers_iff wide).mpr contains.1

/-- What a statement makes live is closed, and it kills no register without all its parts. -/
theorem Describes.closed_apply (described : a.Describes s e) (closed : a.Closed live) :
    a.Closed (e.apply live) := by
  intro part isLive wide covers
  have contains := Coverage.mem_above.mp covers
  have gen := described.gen_iff
  have kill := described.kill_iff
  simp only [Analysis.isLive] at gen kill isLive ⊢
  rw [Effects.apply, Universe.holds_union, Universe.holds_diff, gen, kill] at isLive ⊢
  rcases isLive with ⟨behind, notKilled⟩ | gens
  · exact .inl ⟨closed part behind wide covers, fun kills => notKilled (kills.covered contains)⟩
  · exact .inr (gens.covering contains)

theorem WellFormed.closed_transfer (wellFormed : a.WellFormed) (native : s.IsNative)
    (bounded : a.table.Bounds live) (closed : a.Closed live) :
    ∃ result b, a.transfer live s = (.ok result, b) ∧ b.Closed result := by
  obtain ⟨e, b, found, grown, _, described⟩ := effects_eq_ok wellFormed native
  refine ⟨e.apply live, b, by simp only [transfer, found, Except.map], ?_⟩
  exact described.closed_apply (closed.mono bounded grown)

theorem InOrder.closed_transfer (inOrder : a.InOrder) (bounded : a.table.Bounds live)
    (closed : a.Closed live) (s : Statement) :
    ((∃ result, (a.transfer live s).1 = .ok result) ↔ s.IsNative) ∧
      ∀ result, (a.transfer live s).1 = .ok result → (a.transfer live s).2.Closed result := by
  by_cases native : s.IsNative
  · obtain ⟨result, b, moved, after⟩ := inOrder.toWellFormed.closed_transfer native bounded closed
    rw [moved]
    exact ⟨iff_of_true ⟨result, rfl⟩ native, fun _ same => Except.ok.inj same ▸ after⟩
  · have failed (result : VarSet) : (a.transfer live s).1 ≠ .ok result := by
      intro moved
      cases found : (a.effects s).1 with
      | ok e => exact native ((inOrder.effects s).2.2.mp ⟨e, found⟩)
      | error => simp [transfer, found, Except.map] at moved
    exact ⟨iff_of_false (not_exists.mpr failed) native,
      fun result moved => absurd moved (failed result)⟩

end Analysis

namespace Solver

variable {ν : Type} [DecidableEq ν] {a : Analysis} {live : LiveMap ν} {es : List (Edge ν)}
  {set : VarSet}

theorem Joins.closed (joins : Joins a live es set)
    (each : ∀ e ∈ es, ∀ out, (before a live e).1 = .ok out → a.Closed out) : a.Closed set := by
  intro part isLive wide covers
  obtain ⟨id, member, named⟩ := Universe.holds_iff.mp isLive
  obtain ⟨e, listed, out, told, inside⟩ := (joins.mem_iff id).mp member
  have there := each e listed out told part (Universe.holds_iff.mpr ⟨id, inside, named⟩) wide covers
  obtain ⟨wideId, insideWide, namedWide⟩ := Universe.holds_iff.mp there
  exact Universe.holds_iff.mpr
    ⟨wideId, (joins.mem_iff wideId).mpr ⟨e, listed, out, told, insideWide⟩, namedWide⟩

variable [Node ν] {g : Graph ν} {s t : Solver ν} {n : ν} {update : Option (Update ν)}

def AllClosed (s : Solver ν) : Prop := ∀ n set, s.live.get? n = some set → s.analysis.Closed set

theorem seed_allClosed (g : Graph ν) (wellFormed : a.WellFormed) : (seed g a).AllClosed := by
  intro n set found
  simp only [seed, OrderedMap.get?_ofKeys] at found
  split at found
  · cases found
    split
    · exact wellFormed.closed_atExit
    · exact a.closed_bottom
  · cases found

theorem AllClosed.recomputed (closed : s.AllClosed) (inOrder : s.InOrder)
    (after : t.analysis.InOrder) (grown : s.analysis.GrowsTo t.analysis)
    (recomputed : Recomputed g s n update t) : t.AllClosed := by
  have still (m : ν) (set : VarSet) (found : s.live.get? m = some set) : t.analysis.Closed set :=
    (closed m set found).mono (inOrder.bounded m set found) grown
  intro m set found
  by_cases same : m = n
  · subst same
    by_cases way : m ∈ g.ways
    · obtain ⟨joined, here, joins⟩ := recomputed.way way
      cases found.symm.trans here
      refine joins.closed fun e listed out told => ?_
      obtain ⟨effects, known⟩ := recomputed.remembered e listed
      obtain ⟨behind, target⟩ := Option.isSome_iff_exists.mp (isSome_of_before_eq_ok told)
      rw [before_of_recalled known target] at told
      cases told
      exact (after.toWellFormed.describes known).closed_apply (still e.target behind target)
    · exact still m set (recomputed.exit way ▸ found)
  · exact still m set (recomputed.elsewhere m same ▸ found)

theorem AllClosed.step (closed : s.AllClosed) (inOrder : s.InOrder) (g : Graph ν) (n : ν) :
    (s.step g n).2.AllClosed := by
  obtain ⟨after, grown⟩ := inOrder.step g n
  cases stepped : s.step g n with
  | mk result t =>
      rw [stepped] at after grown
      cases result with
      | ok update =>
          exact closed.recomputed inOrder after.analysis grown (step_recomputed stepped)
      | error failure =>
          obtain ⟨kept, _⟩ := step_failed inOrder.analysis stepped
          intro m set found
          have old : s.live.get? m = some set := kept ▸ found
          exact (closed m set old).mono (inOrder.bounded m set old) grown

theorem iterate_allClosed (inOrder : s.InOrder) (closed : s.AllClosed) (g : Graph ν)
    (schedule : Schedule ν) (visits number : Nat) (limit : Option Nat) :
    (iterate g schedule visits number limit s).solver.AllClosed := by
  have kept (t : Solver ν) (n : ν) (both : t.InOrder ∧ t.AllClosed) :
      (t.step g n).2.InOrder ∧ (t.step g n).2.AllClosed :=
    ⟨(both.1.step g n).1, both.2.step both.1 g n⟩
  exact (iterate_keeps kept ⟨inOrder, closed⟩ schedule visits number limit).2

theorem AllClosed.live_of_part (closed : s.AllClosed) {wide part : String}
    (contains : part ∈ s.analysis.architecture.covered wide) (live : s.Live n part) :
    s.Live n wide := by
  obtain ⟨set, found, isLive⟩ := live
  have covers := Coverage.mem_above.mpr (Coverage.mem_below.mp contains)
  exact ⟨set, found, closed n set found part isLive wide covers⟩

/-- Transfer succeeds on native statements only and keeps closed sets closed; and a worklist started
from a seed has closed sets after any visits, whatever is visited first. So a register is live where a
part of it is, and no write to it is dead there. -/
theorem live_sets_closed {a : Analysis} (inOrder : a.InOrder) :
    (∀ live, a.table.Bounds live → a.Closed live → ∀ s : Statement,
      ((∃ result, (a.transfer live s).1 = .ok result) ↔ s.IsNative) ∧
      ∀ result, (a.transfer live s).1 = .ok result → (a.transfer live s).2.Closed result) ∧
    ∀ (g : Graph Location) (schedule : Schedule Location) (visits number : Nat)
        (limit : Option Nat),
      let s := (iterate g schedule visits number limit (seed g a)).solver
      s.analysis.architecture = a.architecture ∧
      (∀ n set, s.live.get? n = some set → s.analysis.Closed set) ∧
      (∀ n wide, ∀ part ∈ a.architecture.covered wide, s.Live n part → s.Live n wide) ∧
      ∀ (p : Program) (threading : Bool) (e : Edge Location) (wide : String) (rhs : Expr),
        e.statement = .assign wide rhs →
          ∀ part ∈ a.architecture.covered wide, s.Live e.target part →
            p.isDead threading g s.analysis s.live e = .ok false := by
  refine ⟨fun live bounded closed s => inOrder.closed_transfer bounded closed s, ?_⟩
  intro g schedule visits number limit s
  have start : (seed g a).InOrder := ⟨inOrder, (seed_sound g inOrder.toWellFormed).bounded⟩
  have closed : s.AllClosed :=
    iterate_allClosed start (seed_allClosed g inOrder.toWellFormed) g schedule visits number limit
  have sameMachine : s.analysis.architecture = a.architecture :=
    (iterate_ventured inOrder schedule visits number limit).grown.architecture_eq
  have whole (n : Location) (wide part : String) (contains : part ∈ a.architecture.covered wide)
      (live : s.Live n part) : s.Live n wide :=
    closed.live_of_part (sameMachine ▸ contains) live
  refine ⟨sameMachine, closed, whole, fun p threading e wide rhs assigns part contains live => ?_⟩
  obtain ⟨behind, found, isLive⟩ := whole e.target wide part contains live
  simp only [Program.isDead, assigns, found, isLive, Bool.not_true]

def wideWrite : Edge Location := ⟨0, ⟨0x1000, 0⟩, ⟨0x1001, 0⟩, .assign "eax" (.const 1 32)⟩

/-- The write, a read of a part of the register, and a new value for the whole register. -/
def wideThenNarrow : List (Edge Location) :=
  [wideWrite,
   ⟨1, ⟨0x1001, 0⟩, ⟨0x1002, 0⟩, .assign "ebx" (.var "al")⟩,
   ⟨2, ⟨0x1002, 0⟩, ⟨0x1003, 0⟩, .assign "eax" (.const 0 32)⟩]

/-- Visited backwards, the write is kept after the third visit, with one node still pending. -/
theorem wideThenNarrow_keeps_write :
    let a := Analysis.ofArchitecture .x86
    let g := Graph.ofEdges wideThenNarrow
    let s := (iterate g .largest 3 0 none (seed g a)).solver
    a.InOrder ∧ "al" ∈ Architecture.x86.covered "eax" ∧ s.Live wideWrite.target "al" ∧
      s.pending.size = 1 ∧
      (∀ n set, s.live.get? n = some set → s.analysis.Closed set) ∧
      Program.isDead { architecture := .x86 } false g s.analysis s.live wideWrite = .ok false := by
  intro a g s
  have inOrder : a.InOrder := Analysis.ofArchitecture_inOrder .x86
  have contains : "al" ∈ Architecture.x86.covered "eax" := by decide +kernel
  have moment : s.isLive wideWrite.target "al" = true ∧ s.pending.size = 1 := by decide +kernel
  have live : s.Live wideWrite.target "al" := isLive_iff.mp moment.1
  obtain ⟨_, closed, _, kept⟩ := (live_sets_closed inOrder).2 g .largest 3 0 none
  exact ⟨inOrder, contains, live, moment.2, closed,
    kept { architecture := .x86 } false wideWrite "eax" (.const 1 32) rfl "al" contains live⟩

end Solver

end Deadwood
