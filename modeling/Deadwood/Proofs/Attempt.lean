import Deadwood.Proofs.Convergence

namespace Deadwood

/-!
Runs of the worklist over any statements, those included that the analysis does not support. Such a
run keeps the analysis in order and the live sets at the nodes they were at, whether it fails or not;
and a run from a seed comes to its end only if it has met nothing but native statements.
-/

theorem Architecture.generates_isOk_iff {a : Architecture} {s : Statement} :
    (∃ names, a.generates s = .ok names) ↔ s.IsNative := by
  refine ⟨fun ⟨names, found⟩ => ?_, fun native => ?_⟩
  · cases read : s.reads with
    | error => simp [generates, read, bind, Except.bind] at found
    | ok operands => exact Statement.reads_isOk_iff.mp ⟨operands, read⟩
  · obtain ⟨names, found, _⟩ := a.generates_eq_ok native
    exact ⟨names, found⟩

namespace Analysis

variable {a : Analysis} {s : Statement}

/-- Nothing is remembered but effects of native statements, and those rightly. -/
structure InOrder (a : Analysis) : Prop extends a.WellFormed where
  memo_native : ∀ s e, (s, e) ∈ a.memo → s.IsNative

theorem ofArchitecture_inOrder (architecture : Architecture) :
    (ofArchitecture architecture).InOrder :=
  { ofArchitecture_wellFormed architecture with memo_native := fun _ _ member => by cases member }

theorem WellFormed.intern (wellFormed : a.WellFormed) (vs : List Var) :
    (a.intern vs).2.WellFormed ∧ a.GrowsTo (a.intern vs).2 := by
  have grown : a.GrowsTo (a.intern vs).2 := ⟨rfl, rfl, (a.table.internAll_spec vs).1⟩
  refine ⟨⟨wellFormed.registers_bounded.mono grown.table, fun v => ?_, fun t e member => ?_⟩, grown⟩
  · exact (grown.isLive_iff wellFormed.registers_bounded v).trans (wellFormed.registers_iff v)
  · exact (wellFormed.memo_describes t e member).mono grown

theorem mem_memo_effects {t : Statement} {e : Effects} (member : (t, e) ∈ (a.effects s).2.memo) :
    (t, e) ∈ a.memo ∨ t = s ∧ s.IsNative := by
  unfold Analysis.effects at member
  split at member
  · exact .inl member
  · unfold freshEffects at member
    cases killed : a.architecture.kills s with
    | error =>
        rw [killed] at member
        exact .inl member
    | ok names =>
        simp only [killed] at member
        cases generated : a.architecture.generates s with
        | error =>
            rw [generated] at member
            exact .inl member
        | ok others =>
            rw [generated] at member
            rcases List.mem_cons.mp member with same | old
            · cases same
              exact .inr ⟨rfl, Architecture.generates_isOk_iff.mp ⟨others, generated⟩⟩
            · exact .inl old

/-- Effects are found exactly for native statements, and the analysis stays in order either way. -/
theorem InOrder.effects (inOrder : a.InOrder) (s : Statement) :
    a.GrowsTo (a.effects s).2 ∧ (a.effects s).2.InOrder ∧
      ((∃ e, (a.effects s).1 = .ok e) ↔ s.IsNative) := by
  have remembered : ∀ t e, (t, e) ∈ (a.effects s).2.memo → t.IsNative := by
    intro t e member
    rcases mem_memo_effects member with old | ⟨rfl, native⟩
    · exact inOrder.memo_native t e old
    · exact native
  by_cases native : s.IsNative
  · obtain ⟨e, b, found, grown, formed, _⟩ := effects_eq_ok inOrder.toWellFormed native
    rw [found] at remembered ⊢
    exact ⟨grown, { formed with memo_native := remembered }, iff_of_true ⟨e, rfl⟩ native⟩
  · have unknown : a.memo.lookup s = none := by
      apply List.lookup_eq_none_iff.mpr
      rintro ⟨t, e⟩ member
      by_cases same : s = t
      · exact absurd (inOrder.memo_native t e member) (same ▸ native)
      · simpa using same
    obtain ⟨cause, failed⟩ : ∃ cause, a.architecture.generates s = .error cause := by
      cases found : a.architecture.generates s with
      | error cause => exact ⟨cause, rfl⟩
      | ok names => exact absurd (Architecture.generates_isOk_iff.mp ⟨names, found⟩) native
    cases killed : a.architecture.kills s with
    | error =>
        simp only [Analysis.effects, unknown, freshEffects, killed]
        exact ⟨.refl a, inOrder, by simp [native]⟩
    | ok names =>
        obtain ⟨formed, grown⟩ := inOrder.toWellFormed.intern (names.map ({ name := · }))
        simp only [Analysis.effects, unknown, freshEffects, killed, failed]
        exact ⟨grown, { formed with memo_native := inOrder.memo_native }, by simp [native]⟩

end Analysis

namespace Solver

variable {ν : Type} [DecidableEq ν] {a : Analysis} {live : LiveMap ν} {e : Edge ν}
  {es : List (Edge ν)}

theorem before_inOrder (inOrder : a.InOrder) (live : LiveMap ν) (e : Edge ν) :
    a.GrowsTo (before a live e).2 ∧ (before a live e).2.InOrder ∧
      ∀ set, (before a live e).1 = .ok set → e.statement.IsNative := by
  obtain ⟨grown, after, nativeIff⟩ := inOrder.effects e.statement
  unfold before
  cases live.get? e.target with
  | none => exact ⟨.refl a, inOrder, by simp⟩
  | some behind =>
      cases found : a.effects e.statement with
      | mk result b =>
          rw [found] at grown after nativeIff
          cases result with
          | ok effects =>
              simp only [Analysis.transfer, found, Except.map]
              exact ⟨grown, after, fun _ _ => nativeIff.mp ⟨effects, rfl⟩⟩
          | error =>
              simp only [Analysis.transfer, found, Except.map]
              exact ⟨grown, after, by simp⟩

theorem beforeAll_inOrder (inOrder : a.InOrder) (live : LiveMap ν) (e : Edge ν)
    (es : List (Edge ν)) :
    a.GrowsTo (beforeAll a live e es).2 ∧ (beforeAll a live e es).2.InOrder ∧
      ∀ set, (beforeAll a live e es).1 = .ok set → ∀ f ∈ e :: es, f.statement.IsNative := by
  induction es generalizing a e with
  | nil =>
      obtain ⟨grown, after, native⟩ := before_inOrder inOrder live e
      refine ⟨grown, after, fun set found f member => ?_⟩
      rw [List.mem_singleton.mp member]
      exact native set found
  | cons f fs ih =>
      obtain ⟨grown, after, native⟩ := before_inOrder inOrder live e
      unfold beforeAll
      cases first : before a live e with
      | mk result b =>
          rw [first] at grown after native
          cases result with
          | error => exact ⟨grown, after, by simp⟩
          | ok set =>
              obtain ⟨grownRest, afterRest, nativeRest⟩ := ih after f
              dsimp only
              cases rest : beforeAll b live f fs with
              | mk resultRest c =>
                  rw [rest] at grownRest afterRest nativeRest
                  cases resultRest with
                  | error => exact ⟨grown.trans grownRest, afterRest, by simp⟩
                  | ok other =>
                      refine ⟨grown.trans grownRest, afterRest, fun _ _ d member => ?_⟩
                      rcases List.mem_cons.mp member with rfl | later
                      · exact native set rfl
                      · exact nativeRest other rfl d later

variable [Node ν] {g : Graph ν} {s t : Solver ν} {n : ν}

/-- What a visit does over any statements. It succeeds only if the edges out of the node are native.
-/
structure Attempted (g : Graph ν) (s : Solver ν) (n : ν)
    (result : Except (Failure ν) (Option (Update ν)) × Solver ν) : Prop where
  grown : s.analysis.GrowsTo result.2.analysis
  inOrder : result.2.analysis.InOrder
  native : ∀ update, result.1 = .ok update → ∀ e ∈ g.outgoing n, e.statement.IsNative
  pending : ∀ m ∈ s.pending, m ≠ n → m ∈ result.2.pending
  keys : (∀ m, (s.live.get? m).isSome = true ↔ m ∈ g.nodes) →
    ∀ m, (result.2.live.get? m).isSome = true ↔ m ∈ g.nodes

theorem step_attempted (inOrder : s.analysis.InOrder) (n : ν) :
    Attempted g s n (s.step g n) := by
  have kept : ∀ m ∈ s.pending, m ≠ n → m ∈ s.pending.erase n :=
    fun m member apart => SortedSet.mem_erase.mpr ⟨member, apart⟩
  unfold step visit
  cases ways : g.outgoing n with
  | nil =>
      refine ⟨.refl _, inOrder, fun _ _ e member => ?_, kept, id⟩
      rw [ways] at member
      cases member
  | cons e es =>
      have inside : n ∈ g.nodes := by
        have member : e ∈ g.outgoing n := ways ▸ List.mem_cons_self
        obtain ⟨listed, rfl⟩ := Graph.mem_outgoing.mp member
        exact (g.ends_mem e listed).1
      obtain ⟨grown, after, native⟩ := beforeAll_inOrder inOrder s.live e es
      dsimp only
      cases found : beforeAll s.analysis s.live e es with
      | mk result b =>
          rw [found] at grown after native
          cases result with
          | error => exact ⟨grown, after, by simp, kept, id⟩
          | ok set =>
              dsimp only
              split
              · exact ⟨grown, after, fun _ _ => ways ▸ native set rfl, kept, id⟩
              · refine ⟨grown, after, fun _ _ => ways ▸ native set rfl, fun m member apart => ?_, ?_⟩
                · exact SortedSet.mem_insertMany.mpr (.inl (kept m member apart))
                · intro keyed m
                  rw [OrderedMap.get?_insert]
                  split
                  case isTrue atNode => simp [atNode, inside]
                  case isFalse => exact keyed m

/-- What a run keeps over any statements. If every node that is not pending has native edges only, a
run that converges shows that all edges are native. -/
structure Ventured (g : Graph ν) (s : Solver ν) (o : Outcome ν) : Prop where
  grown : s.analysis.GrowsTo o.solver.analysis
  inOrder : o.solver.analysis.InOrder
  keys : (∀ m, (s.live.get? m).isSome = true ↔ m ∈ g.nodes) →
    ∀ m, (o.solver.live.get? m).isSome = true ↔ m ∈ g.nodes
  native : (∀ m, m ∈ s.pending ∨ ∀ e ∈ g.outgoing m, e.statement.IsNative) →
    o.ending = .converged → g.IsNative

theorem Attempted.venture {o : Outcome ν} {update : Option (Update ν)}
    (attempted : Attempted g s n (.ok update, t)) (rest : Ventured g t o) : Ventured g s o where
  grown := attempted.grown.trans rest.grown
  inOrder := rest.inOrder
  keys keyed := rest.keys (attempted.keys keyed)
  native settled := rest.native fun m => by
    by_cases same : m = n
    -- The node just visited is no longer pending, but its edges have been found native.
    · exact .inr (same ▸ attempted.native update rfl)
    · exact (settled m).imp_left fun member => attempted.pending m member same

theorem iterate_ventured (inOrder : s.analysis.InOrder) (schedule : Schedule ν)
    (visits number : Nat) (limit : Option Nat) :
    Ventured g s (iterate g schedule visits number limit s) := by
  fun_induction iterate g schedule visits number limit s with
  | case1 visits number limit s none =>
      refine ⟨.refl _, inOrder, id, fun others _ e member => ?_⟩
      have idle : e.source ∉ s.pending := fun pending => by
        have occupied := SortedSet.isEmpty_eq_false_of_mem pending
        rw [schedule.pick_eq_none_iff.mp none] at occupied
        cases occupied
      exact (others e.source).resolve_left idle e (Graph.mem_outgoing.mpr ⟨member, rfl⟩)
  | case2 | case3 => exact ⟨.refl _, inOrder, id, by simp⟩
  | case4 number limit s n picked below visits failure t failed =>
      have attempted : Attempted g s n (.error failure, t) := failed ▸ step_attempted inOrder n
      exact ⟨attempted.grown, attempted.inOrder, attempted.keys, by simp⟩
  | case5 number limit s n picked below visits t stepped ih =>
      have attempted : Attempted g s n (.ok none, t) := stepped ▸ step_attempted inOrder n
      exact attempted.venture (ih attempted.inOrder)
  | case6 number limit s n picked below visits update t stepped rest ih =>
      have attempted : Attempted g s n (.ok (some update), t) :=
        stepped ▸ step_attempted inOrder n
      have later := attempted.venture (ih attempted.inOrder)
      exact ⟨later.grown, later.inOrder, later.keys, later.native⟩

/-- A run is interrupted only once its limit has been reached. -/
theorem limit_of_interrupted {schedule : Schedule ν} {visits number : Nat} {limit : Option Nat}
    (ended : (iterate g schedule visits number limit s).ending = .interrupted) :
    limit = some (iterate g schedule visits number limit s).updates := by
  fun_induction iterate g schedule visits number limit s with
  | case1 | case3 | case4 => cases ended
  | case2 => rfl
  | case5 number limit s n picked below visits t stepped ih => exact ih ended
  | case6 number limit s n picked below visits update t stepped rest ih =>
      have reached := ih ended
      obtain ⟨bound, rfl, less⟩ := Option.map_eq_some_iff.mp reached
      have positive : bound ≠ 0 := fun zero => below (zero ▸ rfl)
      have counted : bound - 1 = rest.updates := less
      show some bound = some (rest.updates + 1)
      rw [← counted, Nat.sub_add_cancel (Nat.pos_of_ne_zero positive)]

theorem seed_keys (g : Graph ν) (a : Analysis) (n : ν) :
    ((seed g a).live.get? n).isSome = true ↔ n ∈ g.nodes := by
  simp only [seed, OrderedMap.get?_ofKeys]
  split <;> simp_all

/-- A run from a seed visits every node, so it converges only over native statements. -/
theorem Ventured.isNative_of_converged {o : Outcome ν} (ventured : Ventured g (seed g a) o)
    (ended : o.ending = .converged) : g.IsNative := by
  refine ventured.native (fun n => ?_) ended
  by_cases inside : n ∈ g.nodes
  · exact .inl (SortedSet.mem_ofList.mpr inside)
  · refine .inr fun e way => ?_
    obtain ⟨member, rfl⟩ := Graph.mem_outgoing.mp way
    exact absurd (g.ends_mem e member).1 inside

end Solver

end Deadwood
