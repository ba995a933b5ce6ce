import Deadwood.Proofs.Course

namespace Deadwood

/-!
Jumps across the border of a region. A jump is judged with the target it has at the start of its
round, and is removed with the target that earlier removals of the round have given it. Main
statement: the jump crosses a border when it is removed exactly if its target has been carried across
since it was judged, and then an edge that is no jump was removed from there before. So jumps alone
never carry each other across, but a skip or a dead assignment can.
-/

theorem Edge.crosses_iff {e : Edge Location} {region : Int → Bool} :
    e.crosses region = true ↔ region e.source.address ≠ region e.target.address := by
  simp [crosses]

def Statement.IsJump (s : Statement) : Prop := ∃ condition kind, s = .assume condition kind

namespace Pass

variable {p : Pass} {i : Interrupts} {m : Moment} {removals : List Removal} {l : Location}
  {region : Int → Bool} {e : Edge Location} {condition : Expr} {kind : BranchKind}

/-- A location is carried across a border only by a removed edge that crosses it. -/
theorem exists_crosses_of_moved
    (moved : region (representative removals l).address ≠ region l.address) :
    ∃ before d after, removals = before ++ d :: after ∧ d.edge.crosses region = true := by
  induction removals generalizing l with
  | nil => exact absurd rfl moved
  | cons d rest ih =>
      by_cases step : region (d.edge.bypass l).address = region l.address
      · obtain ⟨before, c, after, rfl, crosses⟩ := ih (l := d.edge.bypass l) (step ▸ moved)
        exact ⟨d :: before, c, after, rfl, crosses⟩
      · refine ⟨[], d, rest, rfl, Edge.crosses_iff.mpr ?_⟩
        by_cases source : l = d.edge.source
        · rw [Edge.bypass, if_pos source] at step
          exact source ▸ Ne.symm step
        · rw [Edge.bypass, if_neg source] at step
          exact absurd rfl step

/-- A jump that is judged dead may be threaded, and neither end is across a border from the other. -/
theorem isDead_assume (jump : e.statement = .assume condition kind)
    (dead : p.isDead e = .ok true) :
    p.threading = true ∧ kind = .ordinary ∧ e.crosses p.program.isStub = false ∧
      e.crosses p.program.inHarness = false := by
  simp only [isDead, Program.isDead, jump, Program.isThreadable, Except.ok.injEq, Bool.and_eq_true,
    decide_eq_true_eq, Bool.not_eq_true'] at dead
  obtain ⟨enabled, ⟨⟨_, ordinary⟩, stub⟩, harness⟩ := dead
  exact ⟨enabled, ordinary, stub, harness⟩

theorem GoesThrough.uncrossed (passes : p.GoesThrough i m)
    (jump : m.removal.edge.statement = .assume condition kind) :
    p.threading = true ∧ kind = .ordinary ∧ ∃ e, m.RestsOn e ∧
      ∀ region ∈ [p.program.isStub, p.program.inHarness], e.crosses region = false := by
  obtain ⟨e, rests⟩ := passes.restsOn
  obtain ⟨_, progress⟩ := passes.judged_progress
  obtain ⟨sameProgram, sameThreading⟩ := progress.settings
  obtain ⟨enabled, ordinary, stub, harness⟩ :=
    isDead_assume (rests.statement_eq.symm.trans jump) rests.dead
  rw [sameProgram] at stub harness
  exact ⟨sameThreading ▸ enabled, ordinary, e, rests, by simp [stub, harness]⟩

theorem Moment.RestsOn.crosses_iff (rests : m.RestsOn e) (uncrossed : e.crosses region = false) :
    m.removal.edge.crosses region = true ↔
      region (representative m.earlier e.target).address ≠ region e.target.address := by
  have sameSide : region e.source.address = region e.target.address := by
    simpa [Edge.crosses] using uncrossed
  rw [Edge.crosses_iff, rests.source_eq, rests.target_eq, sameSide, ne_comm]

/-- Wherever an edge is removed that crosses a border, one that is no jump crossed it then or before. A
jump has been carried across by an earlier removal, and so the first of them was not one of a jump. -/
theorem GoesThrough.exists_crosses_not_isJump (passes : p.GoesThrough i m)
    (border : region ∈ [p.program.isStub, p.program.inHarness])
    (crosses : m.removal.edge.crosses region = true) :
    ∃ d ∈ m.earlier ++ [m.removal], d.edge.crosses region = true ∧ ¬ d.edge.statement.IsJump := by
  induction length : m.earlier.length using Nat.strongRecOn generalizing m with
  | ind count ih =>
      by_cases jumps : m.removal.edge.statement.IsJump
      -- What carried the jump across was removed earlier, so fewer removals came before that.
      · obtain ⟨condition, kind, jump⟩ := jumps
        obtain ⟨_, _, e, rests, uncrossed⟩ := passes.uncrossed jump
        have moved := (rests.crosses_iff (uncrossed region border)).mp crosses
        obtain ⟨before, d, after, parts, carried⟩ := exists_crosses_of_moved moved
        obtain ⟨state, earlier⟩ := passes.of_earlier parts
        have shorter : before.length < count := by
          rw [← length, parts, List.length_append, List.length_cons]
          omega
        obtain ⟨c, early, rest⟩ := ih before.length shorter earlier carried rfl
        refine ⟨c, List.mem_append_left _ ?_, rest⟩
        rw [parts, List.append_cons]
        exact List.mem_append_left _ early
      · exact ⟨m.removal, List.mem_append_right _ List.mem_cons_self, crosses, jumps⟩

/-- Every jump that a run removes was judged to be ordinary and to cross no border, with threading
enabled. When it is removed it crosses a border exactly if earlier removals of its round have carried
its target across since then; one of these was the removal of an edge that is no jump and that
crossed the border itself. -/
theorem removed_jump_crosses_iff (p : Pass) (i : Interrupts) (m : Moment)
    (passes : p.GoesThrough i m) (condition : Expr) (kind : BranchKind)
    (jump : m.removal.edge.statement = .assume condition kind) :
    p.threading = true ∧ kind = .ordinary ∧ ∃ e, m.RestsOn e ∧
      ∀ region ∈ [p.program.isStub, p.program.inHarness],
        e.crosses region = false ∧
        (m.removal.edge.crosses region = true ↔
          region (representative m.earlier e.target).address ≠ region e.target.address) ∧
        (m.removal.edge.crosses region = true →
          ∃ d ∈ m.earlier, d.edge.crosses region = true ∧ ¬ d.edge.statement.IsJump) := by
  obtain ⟨enabled, ordinary, e, rests, uncrossed⟩ := passes.uncrossed jump
  refine ⟨enabled, ordinary, e, rests, fun region border => ?_⟩
  refine ⟨uncrossed region border, rests.crosses_iff (uncrossed region border), fun crosses => ?_⟩
  obtain ⟨d, listed, other⟩ := passes.exists_crosses_not_isJump border crosses
  rcases List.mem_append.mp listed with early | last
  · exact ⟨d, early, other⟩
  · rw [List.mem_singleton.mp last] at other
    exact absurd ⟨condition, kind, jump⟩ other.2

/-- A machine with stubs from `0x7000` on. -/
def stubbed : Program where
  architecture := .x86
  stubs := ⟨#[⟨0x7000, 0x8000, by decide⟩], List.pairwise_singleton _ _⟩

/-- A jump to a skip that leads into a stub. -/
def carriedJump : List (Edge Location) :=
  [⟨0, ⟨0x1001, 0⟩, ⟨0x7000, 0⟩, .skip⟩,
   ⟨1, ⟨0x1002, 0⟩, ⟨0x1001, 0⟩, .assume Statement.always .ordinary⟩]

theorem carriedJump_removed :
    .removed ⟨1, ⟨0x1002, 0⟩, ⟨0x7000, 0⟩, .assume Statement.always .ordinary⟩ ∈
      ((ofEdges stubbed true carriedJump).run {}).events := by
  decide +kernel

theorem carriedJump_carried :
    ∃ m, (ofEdges stubbed true carriedJump).GoesThrough {} m ∧
      m.removal.edge.statement = .assume Statement.always .ordinary ∧
      ∃ d ∈ m.earlier, d.edge.crosses stubbed.isStub = true ∧ ¬ d.edge.statement.IsJump := by
  obtain ⟨m, passes, removed⟩ := (removed_mem_run_events ..).mp carriedJump_removed
  have jump : m.removal.edge.statement = .assume Statement.always .ordinary := by rw [removed]
  have crosses : m.removal.edge.crosses stubbed.isStub = true := by
    rw [removed]
    decide +kernel
  obtain ⟨_, _, e, _, borders⟩ := removed_jump_crosses_iff _ {} m passes _ _ jump
  exact ⟨m, passes, jump, (borders stubbed.isStub List.mem_cons_self).2.2 crosses⟩

/-- Jump threading removes a jump that leads into a stub: when its turn comes, the skip that it led to
when it was judged has been removed. -/
theorem carriedJump_crosses_stub :
    ∃ m, (ofEdges stubbed true carriedJump).GoesThrough {} m ∧
      m.removal.edge.statement = .assume Statement.always .ordinary ∧
      stubbed.isStub m.removal.edge.source.address = false ∧
      stubbed.isStub m.removal.edge.target.address = true := by
  obtain ⟨m, passes, removed⟩ := (removed_mem_run_events ..).mp carriedJump_removed
  refine ⟨m, passes, ?_⟩
  rw [removed]
  decide +kernel

end Pass

end Deadwood
