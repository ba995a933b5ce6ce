import Deadwood.Proofs.Attempt
import Deadwood.Proofs.Growth

namespace Deadwood

/-!
What one visit of the worklist does from any starting point. Live sets may be too small or too large
or be missing, and statements need not be native. A visit that succeeds gives its node the union of
what is live before the edges out of it; one that fails blames an edge and changes no live set.
-/

namespace Analysis

variable {a b c : Analysis} {s : Statement} {e : Effects}

/-- The second analysis remembers every effect that the first one remembers. -/
def Recalls (a b : Analysis) : Prop :=
  ∀ s e, a.memo.lookup s = some e → b.memo.lookup s = some e

theorem Recalls.refl (a : Analysis) : a.Recalls a := fun _ _ known => known

theorem Recalls.trans (first : a.Recalls b) (second : b.Recalls c) : a.Recalls c :=
  fun s e known => second s e (first s e known)

theorem effects_of_recalled (known : a.memo.lookup s = some e) : a.effects s = (.ok e, a) := by
  simp only [effects, known]

theorem effects_recalls (a : Analysis) (s : Statement) :
    a.Recalls (a.effects s).2 ∧
      ∀ e, (a.effects s).1 = .ok e → (a.effects s).2.memo.lookup s = some e := by
  cases known : a.memo.lookup s with
  | some e =>
      rw [effects_of_recalled known]
      exact ⟨.refl a, fun _ found => Except.ok.inj found ▸ known⟩
  | none =>
      simp only [effects, known, freshEffects]
      cases a.architecture.kills s with
      | error => exact ⟨.refl a, by simp⟩
      | ok killed =>
          cases a.architecture.generates s with
          | error => exact ⟨.refl a, by simp⟩
          | ok generated =>
              refine ⟨fun t e old => ?_, fun e found => ?_⟩
              · have apart : (t == s) = false := by
                  simpa using fun same : t = s => by simp [same, known] at old
                simpa only [List.lookup_cons, apart] using old
              · cases found
                simp

end Analysis

namespace Solver

variable {ν : Type} [DecidableEq ν] {a b : Analysis} {live other : LiveMap ν} {e : Edge ν}
  {es : List (Edge ν)} {set : VarSet} {effects : Effects} {behind : VarSet}

theorem before_of_recalled (known : a.memo.lookup e.statement = some effects)
    (found : live.get? e.target = some behind) :
    before a live e = (.ok (effects.apply behind), a) := by
  simp only [before, found, Analysis.transfer, Analysis.effects_of_recalled known, Except.map]

theorem before_congr (same : other.get? e.target = live.get? e.target) :
    before a other e = before a live e := by
  simp only [before, same]

/-- What is live before an edge is told by the remembered effects of its statement. -/
theorem before_recalls (a : Analysis) (live : LiveMap ν) (e : Edge ν) :
    a.Recalls (before a live e).2 ∧
      ∀ set, (before a live e).1 = .ok set → ∃ effects behind,
        (before a live e).2.memo.lookup e.statement = some effects ∧
          live.get? e.target = some behind ∧ set = effects.apply behind := by
  obtain ⟨recalls, remembered⟩ := a.effects_recalls e.statement
  cases found : live.get? e.target with
  | none =>
      simp only [before, found]
      exact ⟨.refl a, by simp⟩
  | some behind =>
      cases told : a.effects e.statement with
      | mk result b =>
          rw [told] at recalls remembered
          cases result with
          | error =>
              simp only [before, found, Analysis.transfer, told, Except.map]
              exact ⟨recalls, by simp⟩
          | ok effects =>
              simp only [before, found, Analysis.transfer, told, Except.map]
              refine ⟨recalls, fun set same => ?_⟩
              exact ⟨effects, behind, remembered effects rfl, rfl, (Except.ok.inj same).symm⟩

/-- The variable is live before the edge. -/
def Asks (a : Analysis) (live : LiveMap ν) (e : Edge ν) (id : Nat) : Prop :=
  ∃ out, (before a live e).1 = .ok out ∧ id ∈ out

/-- The set is the union of what is live before the edges, and of each of them that can be told. -/
structure Joins (a : Analysis) (live : LiveMap ν) (es : List (Edge ν)) (set : VarSet) : Prop where
  told : ∀ e ∈ es, ∃ out, (before a live e).1 = .ok out
  mem_iff : ∀ id, id ∈ set ↔ ∃ e ∈ es, Asks a live e id

/-- The effects of the statement are remembered. -/
def Remembered (a : Analysis) (e : Edge ν) : Prop :=
  ∃ effects, a.memo.lookup e.statement = some effects

theorem Joins.congr (joins : Joins a live es set)
    (same : ∀ e ∈ es, (before b other e).1 = (before a live e).1) : Joins b other es set where
  told e member := same e member ▸ joins.told e member
  mem_iff id := by
    rw [joins.mem_iff]
    constructor
    · rintro ⟨e, member, asks⟩
      exact ⟨e, member, by rwa [Asks, same e member]⟩
    · rintro ⟨e, member, asks⟩
      exact ⟨e, member, by rwa [Asks, same e member] at asks⟩

theorem Joins.unique {second : VarSet} (first : Joins a live es set)
    (also : Joins a live es second) : set = second :=
  VarSet.ext fun id => (first.mem_iff id).trans (also.mem_iff id).symm

/-- Where the effect is remembered and the target has a live set, growth of the analysis changes
nothing. -/
theorem Remembered.before_eq (remembered : Remembered a e) (recalls : a.Recalls b)
    (known : (live.get? e.target).isSome = true) : (before b live e).1 = (before a live e).1 := by
  obtain ⟨effects, here⟩ := remembered
  obtain ⟨behind, found⟩ := Option.isSome_iff_exists.mp known
  rw [before_of_recalled here found, before_of_recalled (recalls _ _ here) found]

theorem isSome_of_before_eq_ok {out : VarSet} (told : (before a live e).1 = .ok out) :
    (live.get? e.target).isSome = true := by
  obtain ⟨_, behind, _, found, _⟩ := (before_recalls a live e).2 out told
  rw [found]
  rfl

/-- What has been computed is computed again by the analysis that remembers it. -/
theorem before_again (computed : before a live e = (.ok set, b)) :
    a.Recalls b ∧ Remembered b e ∧ (before b live e).1 = .ok set := by
  obtain ⟨recalls, remembered⟩ := before_recalls a live e
  rw [computed] at recalls remembered
  obtain ⟨effects, behind, known, found, rfl⟩ := remembered set rfl
  exact ⟨recalls, ⟨effects, known⟩, by rw [before_of_recalled known found]⟩

theorem Joins.single {out : VarSet} (told : (before a live e).1 = .ok out) :
    Joins a live [e] out where
  told f member := by
    rw [List.mem_singleton.mp member]
    exact ⟨out, told⟩
  mem_iff id := by simp [Asks, told]

theorem Joins.cons {out others : VarSet} (told : (before a live e).1 = .ok out)
    (rest : Joins a live es others) : Joins a live (e :: es) (out ∪ others) where
  told := List.forall_mem_cons.mpr ⟨⟨out, told⟩, rest.told⟩
  mem_iff id := by
    have asks : Asks a live e id ↔ id ∈ out := by simp [Asks, told]
    rw [VarSet.mem_union, rest.mem_iff, ← asks]
    simp only [List.mem_cons, exists_eq_or_imp]

/-- Live sets joined on the way agree with the analysis there is in the end. -/
theorem beforeAll_joins {a b : Analysis} {live : LiveMap ν} {e : Edge ν} {es : List (Edge ν)}
    {set : VarSet} (computed : beforeAll a live e es = (.ok set, b)) :
    a.Recalls b ∧ Joins b live (e :: es) set ∧ ∀ f ∈ e :: es, Remembered b f := by
  induction es generalizing a e set with
  | nil =>
      obtain ⟨recalls, remembered, told⟩ := before_again computed
      exact ⟨recalls, .single told, by simpa using remembered⟩
  | cons f fs ih =>
      unfold beforeAll at computed
      cases first : before a live e with
      | mk result c =>
          rw [first] at computed
          cases result with
          | error => simp at computed
          | ok out =>
              dsimp only at computed
              cases rest : beforeAll c live f fs with
              | mk resultRest d =>
                  rw [rest] at computed
                  cases resultRest with
                  | error => simp at computed
                  | ok others =>
                      cases computed
                      obtain ⟨recalls, remembered, told⟩ := before_again first
                      obtain ⟨recallsRest, joins, rememberedRest⟩ := ih rest
                      have kept := remembered.before_eq recallsRest (isSome_of_before_eq_ok told)
                      have later := remembered.imp fun _ known => recallsRest _ _ known
                      exact ⟨recalls.trans recallsRest, .cons (kept.trans told) joins,
                        List.forall_mem_cons.mpr ⟨later, rememberedRest⟩⟩

/-- The edge is to blame for the failure: its target has no live set, or its statement is not
native. -/
structure Blames (live : LiveMap ν) (failure : Failure ν) (e : Edge ν) : Prop where
  edge_eq : failure.edge = e
  reason : live.get? e.target = none ∧ failure.cause = .missing e.target ∨
    ¬ e.statement.IsNative ∧ ∃ cause, failure.cause = .unsupported cause

theorem before_blames {failure : Failure ν} (inOrder : a.InOrder)
    (failed : (before a live e).1 = .error failure) : Blames live failure e := by
  obtain ⟨_, _, nativeIff⟩ := inOrder.effects e.statement
  cases found : live.get? e.target with
  | none =>
      simp only [before, found] at failed
      cases failed
      exact ⟨rfl, .inl ⟨found, rfl⟩⟩
  | some behind =>
      cases told : a.effects e.statement with
      | mk result b =>
          rw [told] at nativeIff
          cases result with
          | ok effects => simp [before, found, Analysis.transfer, told, Except.map] at failed
          | error cause =>
              simp only [before, found, Analysis.transfer, told, Except.map] at failed
              cases failed
              exact ⟨rfl, .inr ⟨by simp [← nativeIff], cause, rfl⟩⟩

theorem beforeAll_blames {failure : Failure ν} (inOrder : a.InOrder)
    (failed : (beforeAll a live e es).1 = .error failure) :
    ∃ f ∈ e :: es, Blames live failure f := by
  induction es generalizing a e with
  | nil => exact ⟨e, List.mem_cons_self, before_blames inOrder failed⟩
  | cons f fs ih =>
      obtain ⟨_, after, _⟩ := before_inOrder inOrder live e
      have blames : (before a live e).1 = .error failure → Blames live failure e :=
        before_blames inOrder
      unfold beforeAll at failed
      cases first : before a live e with
      | mk result b =>
          rw [first] at failed after blames
          cases result with
          | error => exact ⟨e, List.mem_cons_self, blames failed⟩
          | ok out =>
              dsimp only at failed
              cases rest : beforeAll b live f fs with
              | mk resultRest c =>
                  rw [rest] at failed
                  cases resultRest with
                  | ok => simp at failed
                  | error =>
                      obtain ⟨d, member, blamesRest⟩ := ih after (by rw [rest]; exact failed)
                      exact ⟨d, List.mem_cons_of_mem _ member, blamesRest⟩

theorem bounds_of_remembered {out : VarSet} (inOrder : a.InOrder) (bounded : Bounded a live)
    (remembered : Remembered a e) (told : (before a live e).1 = .ok out) : a.table.Bounds out := by
  obtain ⟨effects, known⟩ := remembered
  obtain ⟨behind, found⟩ := Option.isSome_iff_exists.mp (isSome_of_before_eq_ok told)
  rw [before_of_recalled known found] at told
  have described := inOrder.toWellFormed.describes known
  cases told
  exact (bounded e.target behind found).diff.union described.gen_bounded

variable [Node ν] {g : Graph ν} {s t : Solver ν} {n m : ν} {update : Option (Update ν)}

/-- All that a visit can do that succeeds, from any starting point. Only the node itself can have
another live set behind it, and then its predecessors are pending. -/
structure Recomputed (g : Graph ν) (s : Solver ν) (n : ν) (update : Option (Update ν))
    (t : Solver ν) : Prop where
  recalls : s.analysis.Recalls t.analysis
  remembered : ∀ e ∈ g.outgoing n, Remembered t.analysis e
  elsewhere : ∀ m, m ≠ n → t.live.get? m = s.live.get? m
  exit : n ∉ g.ways → t.live.get? n = s.live.get? n
  way : n ∈ g.ways → ∃ after, t.live.get? n = some after ∧
    Joins t.analysis s.live (g.outgoing n) after
  kept : update = none → t.live = s.live
  changed : update ≠ none → t.live.get? n ≠ s.live.get? n
  pending_iff : ∀ m, m ∈ t.pending ↔ m ∈ s.pending ∧ m ≠ n ∨
    t.live.get? n ≠ s.live.get? n ∧ ∃ e ∈ g.edges, e.target = n ∧ e.source = m

theorem step_recomputed (stepped : s.step g n = (.ok update, t)) : Recomputed g s n update t := by
  have wayIff : n ∈ g.ways ↔ g.outgoing n ≠ [] := by
    rw [Graph.mem_ways, Graph.isExit_iff_outgoing]
  unfold step visit at stepped
  cases ways : g.outgoing n with
  | nil =>
      simp only [ways] at stepped
      cases stepped
      refine ⟨.refl _, by simp [ways], fun _ _ => rfl, fun _ => rfl, ?_, fun _ => rfl, by simp, ?_⟩
      · exact fun way => absurd ways (wayIff.mp way)
      · simp
  | cons e es =>
      have way : n ∈ g.ways := wayIff.mpr (by simp [ways])
      simp only [ways] at stepped
      cases computed : beforeAll s.analysis s.live e es with
      | mk result b =>
          simp only [computed] at stepped
          cases result with
          | error => simp at stepped
          | ok after =>
              obtain ⟨recalls, joins, remembered⟩ := beforeAll_joins computed
              rw [← ways] at joins remembered
              dsimp only at stepped
              split at stepped
              case isTrue found =>
                cases stepped
                refine ⟨recalls, remembered, fun _ _ => rfl, fun _ => rfl, ?_, fun _ => rfl,
                  by simp, by simp⟩
                exact fun _ => ⟨after, found, joins⟩
              case isFalse different =>
                cases stepped
                have here : (s.live.insert n after).get? n = some after := by
                  rw [OrderedMap.get?_insert, if_pos rfl]
                refine ⟨recalls, remembered, fun m apart => ?_, fun last => absurd way last,
                  fun _ => ⟨after, here, joins⟩, by simp, fun _ => ?_, fun m => ?_⟩
                · rw [OrderedMap.get?_insert, if_neg apart]
                · rw [here]
                  exact fun same => different same.symm
                · have apart : (s.live.insert n after).get? n ≠ s.live.get? n := by
                    rw [here]
                    exact fun same => different same.symm
                  simp only [SortedSet.mem_insertMany, SortedSet.mem_erase, List.mem_map,
                    Graph.mem_incoming, and_assoc, ne_eq, apart, not_false_eq_true, true_and]

namespace Recomputed

theorem known (recomputed : Recomputed g s n update t)
    (found : (s.live.get? m).isSome = true) : (t.live.get? m).isSome = true := by
  by_cases same : m = n
  · subst same
    by_cases way : m ∈ g.ways
    · obtain ⟨after, here, _⟩ := recomputed.way way
      rw [here]
      rfl
    · rwa [recomputed.exit way]
  · rwa [recomputed.elsewhere m same]

theorem get?_eq_of_not_way (recomputed : Recomputed g s n update t) (last : m ∉ g.ways) :
    t.live.get? m = s.live.get? m := by
  by_cases same : m = n
  · subst same
    exact recomputed.exit last
  · exact recomputed.elsewhere m same

end Recomputed

/-- A visit that fails takes the node from the worklist and changes no live set. -/
theorem step_failed {failure : Failure ν} (inOrder : s.analysis.InOrder)
    (stepped : s.step g n = (.error failure, t)) :
    t.live = s.live ∧ t.pending = s.pending.erase n ∧
      ∃ e ∈ g.outgoing n, Blames s.live failure e := by
  unfold step visit at stepped
  cases ways : g.outgoing n with
  | nil => simp [ways] at stepped
  | cons e es =>
      simp only [ways] at stepped
      have blames : (beforeAll s.analysis s.live e es).1 = .error failure →
          ∃ f ∈ e :: es, Blames s.live failure f := beforeAll_blames inOrder
      cases computed : beforeAll s.analysis s.live e es with
      | mk result b =>
          rw [computed] at blames
          simp only [computed] at stepped
          cases result with
          | error =>
              cases stepped
              exact ⟨rfl, rfl, blames rfl⟩
          | ok after =>
              dsimp only at stepped
              split at stepped <;> simp at stepped

/-- The analysis is in order, and the live sets hold ids that it has given out. -/
structure InOrder (s : Solver ν) : Prop where
  analysis : s.analysis.InOrder
  bounded : Bounded s.analysis s.live

theorem InOrder.recomputed (inOrder : s.InOrder) (analysis : t.analysis.InOrder)
    (grown : s.analysis.GrowsTo t.analysis) (recomputed : Recomputed g s n update t) :
    t.InOrder := by
  refine ⟨analysis, fun m set found => ?_⟩
  have kept := inOrder.bounded.mono grown
  by_cases same : m = n
  · subst same
    by_cases way : m ∈ g.ways
    · obtain ⟨after, here, joins⟩ := recomputed.way way
      rw [found, Option.some.injEq] at here
      subst here
      intro id member
      obtain ⟨e, listed, out, told, inside⟩ := (joins.mem_iff id).mp member
      exact bounds_of_remembered analysis kept (recomputed.remembered e listed) told id inside
    · exact kept m set (recomputed.exit way ▸ found)
  · exact kept m set (recomputed.elsewhere m same ▸ found)

theorem InOrder.step (inOrder : s.InOrder) (g : Graph ν) (n : ν) :
    (s.step g n).2.InOrder ∧ s.analysis.GrowsTo (s.step g n).2.analysis := by
  have attempted := step_attempted (g := g) inOrder.analysis n
  cases stepped : s.step g n with
  | mk result t =>
      rw [stepped] at attempted
      cases result with
      | ok update =>
          exact ⟨inOrder.recomputed attempted.inOrder attempted.grown (step_recomputed stepped),
            attempted.grown⟩
      | error failure =>
          obtain ⟨kept, _, _⟩ := step_failed inOrder.analysis stepped
          refine ⟨⟨attempted.inOrder, ?_⟩, attempted.grown⟩
          dsimp only
          rw [kept]
          exact inOrder.bounded.mono attempted.grown

/-- What every visit keeps is kept by a run, whatever it visits and however it ends. -/
theorem iterate_keeps {P : Solver ν → Prop} (kept : ∀ s n, P s → P (s.step g n).2) (holds : P s)
    (schedule : Schedule ν) (visits number : Nat) (limit : Option Nat) :
    P (iterate g schedule visits number limit s).solver := by
  fun_induction iterate g schedule visits number limit s with
  | case1 | case2 | case3 => exact holds
  | case4 number limit s n picked below visits failure t failed =>
      have after := kept s n holds
      rwa [failed] at after
  | case5 number limit s n picked below visits t stepped ih =>
      have after := kept s n holds
      rw [stepped] at after
      exact ih after
  | case6 number limit s n picked below visits update t stepped rest ih =>
      have after := kept s n holds
      rw [stepped] at after
      exact ih after

end Solver

end Deadwood
