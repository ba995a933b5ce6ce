import Deadwood.Proofs.Folding
import Deadwood.Proofs.Semantics

namespace Deadwood

/-!
Folding a graph at edges that are dead keeps its meaning. A run of the graph and the run that follows
it through the folding agree on memory, and on the variables live at the representative of the node
they have come to. More may be live at the node itself: an edge that is merged into a dead one is
dropped with it, although it leads elsewhere.
-/

universe u v

variable {a : Architecture} {Value : Type u} {Memory : Type v} {sem : Semantics a Value Memory}
  {ν : Type} {threading : Bool} {edges middle after es : List (Edge ν)} {e : Edge ν} {l m : ν}
  {x : String} {σ τ ρ υ : State Value Memory}

/-- Nothing that is live behind the edge depends on its statement: a skip, an assignment to a variable
that is not live, or, with jump threading, an ordinary jump that is the only way out. -/
def Edge.IsDead (a : Architecture) (threading : Bool) (edges : List (Edge ν)) (e : Edge ν) : Prop :=
  match e.statement with
  | .assign lhs _ => ¬ LiveAt a edges e.target lhs
  | .skip => True
  | .assume _ kind =>
      threading = true ∧ kind = .ordinary ∧ ∀ f ∈ edges, f.source = e.source → f = e
  | _ => False

/-- Ordinary jumps that leave no choice always pass. -/
def Semantics.PassesForced (sem : Semantics a Value Memory) (edges : List (Edge ν)) : Prop :=
  ∀ e ∈ edges, ∀ condition, e.statement = .assume condition .ordinary →
    (∀ f ∈ edges, f.source = e.source → f.statement = e.statement) →
      ∀ σ, sem.holds (sem.eval condition σ) = true

namespace Edge.IsDead

theorem not_kills (dead : e.IsDead a threading edges) (live : LiveAt a edges e.target x) :
    ¬ a.Kills e.statement x := by
  unfold Edge.IsDead at dead
  cases carried : e.statement with
  | assign lhs rhs =>
      rw [carried] at dead
      intro kills
      -- Live sets are closed under coverage, so no part of a dead variable is live either.
      rcases Architecture.kills_assign.mp kills with rfl | part
      · exact dead live
      · exact dead (live.covering (Coverage.mem_below.mp part))
  | skip | assume => exact Architecture.not_kills_of_defines rfl
  | store | halt | call | foreign =>
      rw [carried] at dead
      exact dead.elim

theorem agree (dead : e.IsDead a threading edges) (done : sem.exec e.statement σ = some τ) :
    σ.Agree (LiveAt a edges e.target) τ := by
  refine ⟨?_, fun x live => (Semantics.exec_frame done (dead.not_kills live)).symm⟩
  unfold Edge.IsDead at dead
  cases carried : e.statement with
  | assign | skip =>
      rw [carried] at done
      cases done
      rfl
  | assume condition =>
      rw [carried, Semantics.exec] at done
      split at done
      · cases done
        rfl
      · cases done
  | store | halt | call | foreign =>
      rw [carried] at dead
      exact dead.elim

theorem passes (dead : e.IsDead a threading edges) (member : e ∈ edges)
    (forced : threading = true → sem.PassesForced edges) (σ : State Value Memory) :
    ∃ τ, sem.exec e.statement σ = some τ := by
  unfold Edge.IsDead at dead
  cases carried : e.statement with
  | assign | skip => exact ⟨_, rfl⟩
  | assume condition kind =>
      rw [carried] at dead
      obtain ⟨enabled, rfl, sole⟩ := dead
      have holds := forced enabled e member condition carried
        (fun f listed leaves => congrArg Edge.statement (sole f listed leaves)) σ
      exact ⟨σ, if_pos holds⟩
  | store | halt | call | foreign =>
      rw [carried] at dead
      exact dead.elim

end Edge.IsDead

theorem LiveAt.of_dead_path (path : IsPath edges l es m)
    (dead : ∀ e ∈ es, e.IsDead a threading edges) (live : LiveAt a edges m x) :
    LiveAt a edges l x := by
  induction es generalizing l with
  | nil => exact path ▸ live
  | cons e es ih =>
      obtain ⟨member, rfl, rest⟩ := path
      have behind := ih rest fun f later => dead f (List.mem_cons_of_mem _ later)
      exact along member ((dead e List.mem_cons_self).not_kills behind) behind

/-- A path of dead edges can always be taken, and nothing that is live at its end changes. -/
theorem Runs.of_dead_path (forced : threading = true → sem.PassesForced edges)
    (path : IsPath edges l es m) (dead : ∀ e ∈ es, e.IsDead a threading edges)
    (σ : State Value Memory) :
    ∃ τ, Runs sem edges l σ m τ ∧ σ.Agree (LiveAt a edges m) τ := by
  induction es generalizing l σ with
  | nil => exact ⟨σ, path ▸ .stay l σ, .refl _ σ⟩
  | cons e es ih =>
      obtain ⟨member, rfl, rest⟩ := path
      have now := dead e List.mem_cons_self
      have later := fun f listed => dead f (List.mem_cons_of_mem e listed)
      obtain ⟨τ, done⟩ := now.passes member forced σ
      obtain ⟨υ, run, same⟩ := ih rest later τ
      have first : σ.Agree (LiveAt a edges m) τ :=
        (now.agree done).mono fun x live => .of_dead_path rest later live
      exact ⟨υ, .step member done run, first.trans same⟩

/-- One step of two runs along one edge: states that agree on what is live before it agree on what is
live behind it. -/
theorem Semantics.exec_agree (member : e ∈ edges) (native : e.statement.IsNative)
    (agree : σ.Agree (LiveAt a edges e.source) ρ) (done : sem.exec e.statement σ = some τ) :
    ∃ υ, sem.exec e.statement ρ = some υ ∧ τ.Agree (LiveAt a edges e.target) υ := by
  obtain ⟨υ, other, memory, values⟩ :=
    exec_congr native (agree.mono fun x gens => .gen member gens) done
  refine ⟨υ, other, memory, fun x live => values x ?_⟩
  by_cases kills : a.Kills e.statement x
  · exact .inl kills
  · exact .inr (agree.2 x (.along member kills live))

namespace Folding

variable {rep : ν → ν} {image : Edge ν → Option (Edge ν)} {gone : Nat → Prop}

theorem liveAt_of_rep (folding : Folding edges after rep image gone)
    (dead : ∀ e ∈ edges, gone e.id → e.IsDead a threading edges)
    (live : LiveAt a edges (rep l) x) : LiveAt a edges l x := by
  obtain ⟨es, path, all⟩ := folding.collapse l
  exact .of_dead_path path (fun e listed => dead e (path.mem e listed) (all e listed)) live

theorem agree_of_folded (folding : Folding edges after rep image gone)
    (dead : ∀ e ∈ edges, gone e.id → e.IsDead a threading edges) (member : e ∈ edges)
    (vanishes : image e = none) (done : sem.exec e.statement σ = some τ) :
    σ.Agree (LiveAt a edges (rep e.source)) τ := by
  obtain ⟨_, _, d, listed, out, source, statement⟩ := folding.folded e member vanishes
  obtain ⟨together, _⟩ := folding.folded d listed (folding.removed d listed out)
  have same := (dead d listed out).agree (statement ▸ done)
  rw [← source, together]
  exact same.mono fun x live => folding.liveAt_of_rep dead live

/-- A run is followed by a run of what is left. -/
theorem forth (folding : Folding edges after rep image gone)
    (dead : ∀ e ∈ edges, gone e.id → e.IsDead a threading edges)
    (native : ∀ e ∈ edges, e.statement.IsNative) (run : Runs sem edges l σ m τ)
    (agree : σ.Agree (LiveAt a edges (rep l)) ρ) :
    ∃ υ, Runs sem after (rep l) ρ (rep m) υ ∧ τ.Agree (LiveAt a edges (rep m)) υ := by
  induction run generalizing ρ with
  | stay => exact ⟨ρ, .stay _ ρ, agree⟩
  | @step e m σ between τ member done _ ih =>
      -- Where the edge disappears, the run of what is left waits.
      cases found : image e with
      | none =>
          have idle := folding.agree_of_folded dead member found done
          have together := (folding.folded e member found).1
          rw [together] at agree idle ⊢
          exact ih (idle.symm.trans agree)
      | some f =>
          obtain ⟨there, source, statement, target, fixed⟩ := folding.kept e member f found
          rw [fixed] at agree ⊢
          obtain ⟨other, doneToo, same⟩ :=
            Semantics.exec_agree member (native e member) agree done
          obtain ⟨υ, rest, final⟩ :=
            ih (same.mono fun x live => folding.liveAt_of_rep dead live)
          refine ⟨υ, ?_, final⟩
          rw [← source]
          exact .step there (statement ▸ doneToo) (target ▸ rest)

/-- A run of what is left is followed by a run that also takes the edges taken out. -/
theorem back (folding : Folding edges after rep image gone)
    (dead : ∀ e ∈ edges, gone e.id → e.IsDead a threading edges)
    (native : ∀ e ∈ edges, e.statement.IsNative)
    (forced : threading = true → sem.PassesForced edges) (run : Runs sem after l ρ m υ)
    (agree : σ.Agree (LiveAt a edges l) ρ) :
    ∃ τ, Runs sem edges l σ m τ ∧ τ.Agree (LiveAt a edges m) υ := by
  induction run generalizing σ with
  | stay => exact ⟨σ, .stay _ σ, agree⟩
  | @step f m ρ between υ there done _ ih =>
      obtain ⟨e, rest, ⟨member, source, path⟩, _, statement, _, all⟩ := folding.expand_edge there
      -- The edge is the one it was, and dead edges lead from its old target to the new one.
      have idle : ∀ d ∈ rest, d.IsDead a threading edges := fun d listed =>
        dead d (path.mem d listed) (all d listed)
      rw [← source] at agree ⊢
      obtain ⟨first, doneToo, same⟩ :=
        Semantics.exec_agree member (native e member) agree.symm (statement ▸ done)
      obtain ⟨second, across, unchanged⟩ := Runs.of_dead_path forced path idle first
      have arrived : second.Agree (LiveAt a edges f.target) between :=
        unchanged.symm.trans (same.symm.mono fun x live => .of_dead_path path idle live)
      obtain ⟨τ, later, final⟩ := ih arrived
      exact ⟨τ, .step member doneToo (across.trans later), final⟩

end Folding

/-- What a run shows at a node besides memory: at an exit the registers, elsewhere nothing. -/
def Observed (a : Architecture) (edges : List (Edge ν)) (n : ν) (x : String) : Prop :=
  IsExit edges n ∧ x ∈ a.registerNames

/-- What is left does what was there before. From states that agree on memory and on what is live,
runs of either follow runs of the other to the same observations. Runs of what is left can be
followed back if threading has taken out only jumps that always pass. -/
structure Preserves (sem : Semantics a Value Memory) (threading : Bool) (edges after : List (Edge ν))
    (rep : ν → ν) : Prop where
  exits : ∀ l, IsExit edges l → rep l = l ∧ IsExit after l
  forth : ∀ l m σ ρ τ, σ.Agree (LiveAt a edges l) ρ → Runs sem edges l σ m τ →
    ∃ υ, Runs sem after (rep l) ρ (rep m) υ ∧ τ.Agree (Observed a edges m) υ
  back : (threading = true → sem.PassesForced edges) →
    ∀ l m σ ρ υ, σ.Agree (LiveAt a edges l) ρ → Runs sem after (rep l) ρ m υ →
      ∃ τ, Runs sem edges l σ m τ ∧ τ.Agree (Observed a edges m) υ

theorem Preserves.trans {rep next : ν → ν} (first : Preserves sem threading edges middle rep)
    (second : Preserves sem threading middle after next)
    (passes : sem.PassesForced edges → sem.PassesForced middle) :
    Preserves sem threading edges after (fun l => next (rep l)) where
  exits l last := by
    obtain ⟨fixed, between⟩ := first.exits l last
    rw [fixed]
    exact second.exits l between
  forth l m σ ρ τ agree run := by
    obtain ⟨υ, between, seen⟩ := first.forth l m σ ρ τ agree run
    obtain ⟨ω, follows, seenAfter⟩ := second.forth _ _ ρ ρ υ (.refl _ ρ) between
    refine ⟨ω, follows, seen.trans (seenAfter.mono fun x ⟨last, register⟩ => ?_)⟩
    obtain ⟨fixed, stays⟩ := first.exits m last
    rw [fixed]
    exact ⟨stays, register⟩
  back forced l m σ ρ υ agree run := by
    obtain ⟨τ, between, seen⟩ := second.back (fun enabled => passes (forced enabled)) (rep l) m ρ ρ υ
      (.refl _ ρ) run
    obtain ⟨ω, follows, seenBefore⟩ := first.back forced l m σ ρ τ agree between
    refine ⟨ω, follows, seenBefore.trans (seen.mono fun x ⟨last, register⟩ => ?_)⟩
    exact ⟨(first.exits m last).2, register⟩

theorem Semantics.PassesForced.of_copies [DecidableEq ν] {others : List (Edge ν)}
    (passes : sem.PassesForced edges) (there : HaveCopies edges others)
    (back : HaveCopies others edges) : sem.PassesForced others := by
  intro f listed condition carried alike
  obtain ⟨e, member, copy⟩ := back f listed
  obtain ⟨source, _, statement⟩ := Edge.isCopy_iff.mp copy
  apply passes e member condition (statement ▸ carried)
  intro d inside leaves
  obtain ⟨g, listedG, copyG⟩ := there d inside
  obtain ⟨sourceG, _, statementG⟩ := Edge.isCopy_iff.mp copyG
  rw [statementG, ← statement]
  exact alike g listedG (sourceG.symm.trans (leaves.trans source.symm))

theorem Preserves.of_copies [DecidableEq ν] {rep : ν → ν} {input output : List (Edge ν)}
    (kept : Preserves sem threading edges after rep) (there : HaveCopies input edges)
    (back : HaveCopies edges input) (thereAfter : HaveCopies output after)
    (backAfter : HaveCopies after output) : Preserves sem threading input output rep where
  exits l last := by
    obtain ⟨fixed, stays⟩ := kept.exits l ((there.isExit_iff back).mp last)
    exact ⟨fixed, (thereAfter.isExit_iff backAfter).mpr stays⟩
  forth l m σ ρ τ agree run := by
    obtain ⟨υ, follows, seen⟩ := kept.forth l m σ ρ τ
      (agree.mono fun x => (there.liveAt_iff back).mpr) (run.copies there)
    exact ⟨υ, follows.copies backAfter,
      seen.mono fun x seenX => ⟨(there.isExit_iff back).mp seenX.1, seenX.2⟩⟩
  back forced l m σ ρ υ agree run := by
    obtain ⟨τ, follows, seen⟩ := kept.back (fun enabled => (forced enabled).of_copies there back)
      l m σ ρ υ (agree.mono fun x => (there.liveAt_iff back).mpr) (run.copies thereAfter)
    exact ⟨τ, follows.copies back,
      seen.mono fun x seenX => ⟨(there.isExit_iff back).mp seenX.1, seenX.2⟩⟩

namespace Folding

variable {rep : ν → ν} {image : Edge ν → Option (Edge ν)} {gone : Nat → Prop}

theorem isExit (folding : Folding edges after rep image gone) (last : IsExit edges l) :
    rep l = l ∧ IsExit after l := by
  constructor
  · obtain ⟨es, path, _⟩ := folding.collapse l
    cases es with
    | nil => exact path.symm
    | cons e es => exact absurd path.2.1 (last e path.1)
  · intro f there leaves
    obtain ⟨e, member, _, found⟩ := folding.origin f there
    exact last e member ((folding.kept e member f found).2.1.symm.trans leaves)

theorem passesForced (folding : Folding edges after rep image gone)
    (passes : sem.PassesForced edges) : sem.PassesForced after := by
  intro f there condition carried alike
  obtain ⟨e, member, _, found⟩ := folding.origin f there
  obtain ⟨_, source, statement, _⟩ := folding.kept e member f found
  apply passes e member condition (statement ▸ carried)
  intro d listed leaves
  cases imageD : image d with
  | none => exact absurd (source.trans leaves.symm) ((folding.folded d listed imageD).2.1 f there)
  | some g =>
      obtain ⟨thereG, sourceG, statementG, _⟩ := folding.kept d listed g imageD
      rw [← statementG, ← statement]
      exact alike g thereG (sourceG.trans (leaves.trans source.symm))

theorem preserves (folding : Folding edges after rep image gone)
    (dead : ∀ e ∈ edges, gone e.id → e.IsDead a threading edges)
    (native : ∀ e ∈ edges, e.statement.IsNative) : Preserves sem threading edges after rep where
  exits l last := folding.isExit last
  forth l m σ ρ τ agree run := by
    obtain ⟨υ, follows, same⟩ := folding.forth dead native run
      (agree.mono fun x live => folding.liveAt_of_rep dead live)
    refine ⟨υ, follows, same.mono fun x ⟨last, register⟩ => ?_⟩
    rw [(folding.isExit last).1]
    exact .exit last register
  back forced l m σ ρ υ agree run := by
    obtain ⟨es, path, all⟩ := folding.collapse l
    have idle : ∀ e ∈ es, e.IsDead a threading edges := fun e listed =>
      dead e (path.mem e listed) (all e listed)
    obtain ⟨first, across, unchanged⟩ := Runs.of_dead_path forced path idle σ
    have arrived : first.Agree (LiveAt a edges (rep l)) ρ :=
      unchanged.symm.trans (agree.mono fun x live => .of_dead_path path idle live)
    obtain ⟨τ, follows, same⟩ := folding.back dead native forced run arrived
    exact ⟨τ, across.trans follows, same.mono fun x ⟨last, register⟩ => .exit last register⟩

end Folding

end Deadwood
