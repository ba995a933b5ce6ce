import Deadwood.Architecture.X86
import Deadwood.Proofs.Denotation
import Deadwood.Proofs.Recomputation

namespace Deadwood

/-!
An analysis under any calls. It numbers variables and remembers effects as it goes, also in calls that
fail. Main statement: neither can be noticed. Whatever has been asked before, a call has the answer
that its statement alone tells, and the sets handed out and remembered keep their names.
-/

/-- The effects of a statement as ordinary sets of names. -/
structure PlainEffects where
  kill : Finset String
  gen : Finset String
deriving DecidableEq

def Effects.plain (u : Universe) (e : Effects) : PlainEffects := ⟨u.nameSet e.kill, u.nameSet e.gen⟩

namespace Architecture

variable {a : Architecture} {s : Statement} {cause : Unsupported}

/-- What a statement defines with all that this contains, and what it reads with all that contains
that. An unknown procedure reads every register besides. -/
def plainEffects (a : Architecture) (s : Statement) : Except Unsupported PlainEffects := do
  let defined ← s.defines
  let read ← s.reads
  let unseen := match s with
    | .call _ => a.registerNames
    | _ => []
  return {
    kill := defined.toFinset ∪ (defined.flatMap a.covered).toFinset
    gen := read.toFinset ∪ (read.flatMap a.covering).toFinset ∪ unseen.toFinset }

def plainTransfer (a : Architecture) (live : Finset String) (s : Statement) :
    Except Unsupported (Finset String) := do
  let e ← a.plainEffects s
  return (live \ e.kill) ∪ e.gen

theorem plainEffects_eq_ok (a : Architecture) (native : s.IsNative) :
    ∃ e, a.plainEffects s = .ok e ∧ (∀ v, v ∈ e.kill ↔ a.Kills s v) ∧
      ∀ v, v ∈ e.gen ↔ a.Gens s v := by
  obtain ⟨defined, foundDefined⟩ := Statement.defines_isOk_of_isNative native
  obtain ⟨read, foundRead⟩ := Statement.reads_isOk_iff.mpr native
  refine ⟨_, by simp only [plainEffects, foundDefined, foundRead]; rfl, fun v => ?_, fun v => ?_⟩
  · simp only [Finset.mem_union, List.mem_toFinset, List.mem_flatMap, covered, Coverage.mem_below,
      Kills, Statement.Defines, foundDefined, Except.ok.injEq, exists_eq_left', and_or_left,
      exists_or, exists_eq_right']
  · have operands : v ∈ read.toFinset ∪ (read.flatMap a.covering).toFinset ↔
        ∃ r, s.Reads r ∧ (v = r ∨ a.coverage.Covers v r) := by
      simp only [Finset.mem_union, List.mem_toFinset, List.mem_flatMap, covering,
        Coverage.mem_above, Statement.Reads, foundRead, Except.ok.injEq, exists_eq_left',
        and_or_left, exists_or, exists_eq_right']
    rw [Finset.mem_union, operands]
    cases s <;> simp [Gens]

end Architecture

namespace Analysis

variable {a b : Analysis} {s : Statement} {cause : Unsupported} {live : VarSet}

/-- What fails is the first of the two questions that the statement cannot answer. -/
theorem plainEffects_of_error (failed : (a.effects s).1 = .error cause) :
    a.architecture.plainEffects s = .error cause := by
  cases known : a.memo.lookup s with
  | some e => simp [effects, known] at failed
  | none =>
      simp only [effects, known, freshEffects] at failed
      cases defined : s.defines with
      | error other =>
          have kills : a.architecture.kills s = .error other := by rw [Architecture.kills, defined]; rfl
          rw [kills] at failed
          cases failed
          simp only [Architecture.plainEffects, defined]
          rfl
      | ok names =>
          cases read : s.reads with
          | error other =>
              have generates : a.architecture.generates s = .error other := by
                rw [Architecture.generates, read]; rfl
              rw [Architecture.kills, defined, generates] at failed
              cases failed
              simp only [Architecture.plainEffects, defined, read]
              rfl
          | ok operands =>
              rw [Architecture.kills, defined, Architecture.generates, read] at failed
              cases failed

/-- Neither what is remembered nor how variables are numbered shows in the effects of a statement. -/
theorem InOrder.effects_plainly (inOrder : a.InOrder) (s : Statement) :
    (a.effects s).1.map (Effects.plain (a.effects s).2.table) = a.architecture.plainEffects s := by
  cases found : (a.effects s).1 with
  | error cause => exact (plainEffects_of_error found).symm
  | ok e =>
      have native := (inOrder.effects s).2.2.mp ⟨e, found⟩
      obtain ⟨plain, told, kills, gens⟩ := a.architecture.plainEffects_eq_ok native
      obtain ⟨known, b, answered, grown, _, described⟩ := effects_eq_ok inOrder.toWellFormed native
      rw [answered] at found
      cases found
      have killed : b.table.nameSet e.kill = plain.kill := by
        ext v
        rw [Universe.mem_nameSet, kills, ← grown.architecture_eq]
        exact described.kill_iff v
      have generated : b.table.nameSet e.gen = plain.gen := by
        ext v
        rw [Universe.mem_nameSet, gens, ← grown.architecture_eq]
        exact described.gen_iff v
      rw [told, answered, Except.map, Effects.plain, killed, generated]

theorem InOrder.effects_eq_error_iff (inOrder : a.InOrder) :
    (a.effects s).1 = .error cause ↔ a.architecture.plainEffects s = .error cause := by
  rw [← inOrder.effects_plainly s]
  cases (a.effects s).1 with
  | error other => simp [Except.map]
  | ok e => simp [Except.map]

theorem transfer_eq_error_iff :
    (a.transfer live s).1 = .error cause ↔ (a.effects s).1 = .error cause := by
  have same : (a.transfer live s).1 = (a.effects s).1.map (·.apply live) := rfl
  rw [same]
  cases (a.effects s).1 with
  | error other => simp [Except.map]
  | ok e => simp [Except.map]

theorem InOrder.transfer_plainly (inOrder : a.InOrder) (bounded : a.table.Bounds live)
    (s : Statement) :
    (a.transfer live s).1.map (a.transfer live s).2.table.nameSet =
      a.architecture.plainTransfer (a.table.nameSet live) s := by
  have told := inOrder.effects_plainly s
  have before := (inOrder.effects s).1.table.nameSet_eq bounded
  have result : (a.transfer live s).1 = (a.effects s).1.map (·.apply live) := rfl
  have after : (a.transfer live s).2 = (a.effects s).2 := rfl
  rw [Architecture.plainTransfer, ← told, result, after]
  cases (a.effects s).1 with
  | error cause => rfl
  | ok e =>
      simp only [Except.map, Effects.apply, Universe.nameSet_union, Universe.nameSet_diff, before]
      rfl

/-- What can be asked of an analysis. A set is told by its position among those handed out. -/
inductive Call where
  | gather (vs : List Var)
  | join (first second : Nat)
  | effects (s : Statement)
  | transfer (argument : Nat) (s : Statement)

/-- An analysis in use, and the sets it has handed out in the order in which it did. -/
structure Session where
  analysis : Analysis
  sets : List VarSet

namespace Session

variable {session later last : Session} {handed : List VarSet}

def ofArchitecture (architecture : Architecture) : Session where
  analysis := .ofArchitecture architecture
  sets := [bottom, (Analysis.ofArchitecture architecture).atExit]

/-- The sets that a call hands out, none if it asks for a set that is not there. -/
def answer (session : Session) : Call → Except Unsupported (List VarSet) × Analysis
  | .gather vs =>
      let (set, a) := session.analysis.intern vs
      (.ok [set], a)
  | .join first second =>
      match session.sets[first]?, session.sets[second]? with
      | some s, some t => (.ok [Analysis.join s t], session.analysis)
      | _, _ => (.ok [], session.analysis)
  | .effects s =>
      let (found, a) := session.analysis.effects s
      (found.map fun e => [e.kill, e.gen], a)
  | .transfer argument s =>
      match session.sets[argument]? with
      | some live =>
          let (found, a) := session.analysis.transfer live s
          (found.map ([·]), a)
      | none => (.ok [], session.analysis)

/-- The session after a call. One that fails may still have numbered variables. -/
def perform (session : Session) (call : Call) : Session :=
  match session.answer call with
  | (.ok handed, analysis) => ⟨analysis, session.sets ++ handed⟩
  | (.error _, analysis) => ⟨analysis, session.sets⟩

def performAll (session : Session) (calls : List Call) : Session := calls.foldl perform session

/-- The names in a set, as the session has numbered variables so far. -/
def nameSet (session : Session) (set : VarSet) : Finset String := session.analysis.table.nameSet set

structure Sound (session : Session) : Prop where
  inOrder : session.analysis.InOrder
  bounded : ∀ set ∈ session.sets, session.analysis.table.Bounds set

/-- One session comes to be the other: ids, remembered effects and sets are only ever added. -/
structure Becomes (session later : Session) : Prop where
  grown : session.analysis.GrowsTo later.analysis
  recalls : session.analysis.Recalls later.analysis
  sets : session.sets <+: later.sets

theorem Becomes.refl (session : Session) : session.Becomes session :=
  ⟨.refl _, .refl _, List.prefix_rfl⟩

theorem Becomes.trans (first : session.Becomes later) (second : later.Becomes last) :
    session.Becomes last :=
  ⟨first.grown.trans second.grown, first.recalls.trans second.recalls,
    first.sets.trans second.sets⟩

/-- A set of known ids keeps its names. -/
theorem Becomes.nameSet_eq (becomes : session.Becomes later) {set : VarSet}
    (bounded : session.analysis.table.Bounds set) : later.nameSet set = session.nameSet set :=
  becomes.grown.table.nameSet_eq bounded

theorem ofArchitecture_sound (architecture : Architecture) : (ofArchitecture architecture).Sound := by
  have inOrder := ofArchitecture_inOrder architecture
  refine ⟨inOrder, fun set member => ?_⟩
  simp only [ofArchitecture, List.mem_cons, List.not_mem_nil, or_false] at member
  rcases member with rfl | rfl
  · exact .empty _
  · exact inOrder.registers_bounded

/-- What a call does to an analysis that is in order, whether it fails or not. -/
structure Answered (session : Session) (answer : Except Unsupported (List VarSet))
    (b : Analysis) : Prop where
  inOrder : b.InOrder
  grown : session.analysis.GrowsTo b
  recalls : session.analysis.Recalls b
  bounded : ∀ handed, answer = .ok handed → ∀ set ∈ handed, b.table.Bounds set

theorem Sound.answered_unchanged (sound : session.Sound)
    (bounded : ∀ set ∈ handed, session.analysis.table.Bounds set) :
    session.Answered (.ok handed) session.analysis where
  inOrder := sound.inOrder
  grown := .refl _
  recalls := .refl _
  bounded _ same := Except.ok.inj same ▸ bounded

theorem Sound.answered_gather (sound : session.Sound) (vs : List Var) :
    session.Answered (.ok [(session.analysis.intern vs).1]) (session.analysis.intern vs).2 := by
  obtain ⟨formed, grown⟩ := sound.inOrder.toWellFormed.intern vs
  have known : (session.analysis.intern vs).2.table.Bounds (session.analysis.intern vs).1 :=
    (session.analysis.table.internAll_spec vs).2.1
  refine ⟨{ formed with memo_native := sound.inOrder.memo_native }, grown, .refl _, ?_⟩
  intro handed same set member
  cases same
  exact List.mem_singleton.mp member ▸ known

theorem Sound.answered_effects (sound : session.Sound) (s : Statement) :
    session.Answered ((session.analysis.effects s).1.map fun e => [e.kill, e.gen])
      (session.analysis.effects s).2 := by
  obtain ⟨grown, after, _⟩ := sound.inOrder.effects s
  obtain ⟨recalls, remembered⟩ := session.analysis.effects_recalls s
  refine ⟨after, grown, recalls, fun handed same set member => ?_⟩
  cases found : (session.analysis.effects s).1 with
  | error cause => simp [found, Except.map] at same
  | ok e =>
      have described := after.toWellFormed.describes (remembered e found)
      rw [found, Except.map, Except.ok.injEq] at same
      rw [← same, List.mem_pair] at member
      rcases member with rfl | rfl
      · exact described.kill_bounded
      · exact described.gen_bounded

theorem Sound.answered_transfer (sound : session.Sound) {live : VarSet}
    (bounded : session.analysis.table.Bounds live) (s : Statement) :
    session.Answered ((session.analysis.transfer live s).1.map ([·]))
      (session.analysis.transfer live s).2 := by
  have told := sound.answered_effects s
  have before := bounded.mono told.grown.table
  refine ⟨told.inOrder, told.grown, told.recalls, fun handed same set member => ?_⟩
  have result : (session.analysis.transfer live s).1 =
      (session.analysis.effects s).1.map (·.apply live) := rfl
  cases found : (session.analysis.effects s).1 with
  | error cause => simp [result, found, Except.map] at same
  | ok e =>
      have gen := told.bounded [e.kill, e.gen] (by rw [found]; rfl) e.gen (by simp)
      rw [result, found, Except.map, Except.map, Except.ok.injEq] at same
      rw [← same, List.mem_singleton] at member
      subst member
      exact before.diff.union gen

theorem Sound.answered (sound : session.Sound) (call : Call) :
    session.Answered (session.answer call).1 (session.answer call).2 := by
  cases call with
  | gather vs => exact sound.answered_gather vs
  | effects s => exact sound.answered_effects s
  | join first second =>
      simp only [answer]
      split
      case h_1 s t left right =>
        have first := sound.bounded s (List.mem_of_getElem? left)
        have second := sound.bounded t (List.mem_of_getElem? right)
        exact sound.answered_unchanged fun set member =>
          List.mem_singleton.mp member ▸ first.union second
      case h_2 => exact sound.answered_unchanged (by simp)
  | transfer argument s =>
      cases found : session.sets[argument]? with
      | some live =>
          have told := sound.answered_transfer (sound.bounded live (List.mem_of_getElem? found)) s
          simpa only [answer, found] using told
      | none =>
          simp only [answer, found]
          exact sound.answered_unchanged (by simp)

theorem Sound.perform (sound : session.Sound) (call : Call) :
    (session.perform call).Sound ∧ session.Becomes (session.perform call) := by
  have answered := sound.answered call
  unfold Session.perform
  cases told : session.answer call with
  | mk answer b =>
      rw [told] at answered
      have kept (set : VarSet) (old : set ∈ session.sets) : b.table.Bounds set :=
        (sound.bounded set old).mono answered.grown.table
      cases answer with
      | error cause =>
          exact ⟨⟨answered.inOrder, kept⟩, answered.grown, answered.recalls, List.prefix_rfl⟩
      | ok handed =>
          refine ⟨⟨answered.inOrder, fun set member => ?_⟩, answered.grown, answered.recalls,
            List.prefix_append ..⟩
          rcases List.mem_append.mp member with old | new
          · exact kept set old
          · exact answered.bounded handed rfl set new

theorem Sound.performAll (sound : session.Sound) (calls : List Call) :
    (session.performAll calls).Sound ∧ session.Becomes (session.performAll calls) := by
  induction calls generalizing session with
  | nil => exact ⟨sound, .refl session⟩
  | cons call calls ih =>
      obtain ⟨after, first⟩ := sound.perform call
      obtain ⟨final, rest⟩ := ih after
      exact ⟨final, first.trans rest⟩

/-- Whatever has been asked of an analysis, it makes a set of just the variables given, and the effects
of a statement and what is live before it are as told by the statement alone. A call fails just as it
would as the first one, for the same cause. Later calls change neither the sets that have been handed
out nor the effects that are remembered, and all these keep their names. -/
theorem calls_answered_plainly (architecture : Architecture) (calls : List Call) :
    let session := (ofArchitecture architecture).performAll calls
    let fresh := Analysis.ofArchitecture architecture
    (∀ vs, (session.analysis.intern vs).2.table.nameSet (session.analysis.intern vs).1 =
      (vs.map Var.name).toFinset) ∧
    (∀ s, (session.analysis.effects s).1.map (Effects.plain (session.analysis.effects s).2.table) =
      architecture.plainEffects s) ∧
    (∀ live ∈ session.sets, ∀ s,
      (session.analysis.transfer live s).1.map (session.analysis.transfer live s).2.table.nameSet =
        architecture.plainTransfer (session.nameSet live) s) ∧
    (∀ s cause, ((session.analysis.effects s).1 = .error cause ↔ (fresh.effects s).1 = .error cause) ∧
      ∀ live other, (session.analysis.transfer live s).1 = .error cause ↔
        (fresh.transfer other s).1 = .error cause) ∧
    ∀ more, let later := session.performAll more
      (∀ (position : Nat) (set : VarSet), session.sets[position]? = some set →
        later.sets[position]? = some set ∧ later.nameSet set = session.nameSet set) ∧
      ∀ s e, session.analysis.memo.lookup s = some e →
        later.analysis.memo.lookup s = some e ∧
          later.nameSet e.kill = session.nameSet e.kill ∧
          later.nameSet e.gen = session.nameSet e.gen := by
  intro session fresh
  obtain ⟨sound, begun⟩ := (ofArchitecture_sound architecture).performAll calls
  have sameMachine : session.analysis.architecture = architecture := begun.grown.architecture_eq
  have fails (s : Statement) (cause : Unsupported) :
      (session.analysis.effects s).1 = .error cause ↔ (fresh.effects s).1 = .error cause := by
    rw [sound.inOrder.effects_eq_error_iff, (ofArchitecture_inOrder architecture).effects_eq_error_iff,
      sameMachine]
    rfl
  refine ⟨session.analysis.table.nameSet_internAll, fun s => ?_, fun live member s => ?_,
    fun s cause => ⟨fails s cause, ?_⟩, ?_⟩
  · rw [sound.inOrder.effects_plainly, sameMachine]
  · rw [sound.inOrder.transfer_plainly (sound.bounded live member), sameMachine]
    rfl
  · intro live other
    rw [transfer_eq_error_iff, transfer_eq_error_iff, fails]
  · intro more later
    obtain ⟨_, becomes⟩ := sound.performAll more
    refine ⟨fun position set found => ⟨?_, ?_⟩, fun s e known => ⟨becomes.recalls s e known, ?_, ?_⟩⟩
    · obtain ⟨rest, extended⟩ := becomes.sets
      have within := (List.getElem?_eq_some_iff.mp found).1
      rw [← extended, List.getElem?_append_left within]
      exact found
    · exact becomes.nameSet_eq (sound.bounded set (List.mem_of_getElem? found))
    · exact becomes.nameSet_eq (sound.inOrder.toWellFormed.describes known).kill_bounded
    · exact becomes.nameSet_eq (sound.inOrder.toWellFormed.describes known).gen_bounded

/-- The register is overwritten and a part of it read. -/
def increment : Statement := .assign "eax" (.binary "+" (.var "al") (.const 1 32))

/-- A set with a temporary, a call that fails when it has numbered a variable already, and the same
statement twice. -/
def troubledCalls : List Call :=
  [.gather [⟨"eax", 32⟩, ⟨"tmp", 32⟩], .effects (.assign "new" (.foreign "phi")), .effects increment,
   .transfer 2 increment, .gather [⟨"new", 8⟩]]

theorem troubledCalls_answered :
    let session := (ofArchitecture .x86).performAll troubledCalls
    ∃ live, session.sets[2]? = some live ∧ session.nameSet live = {"eax", "tmp"} ∧
      (session.analysis.transfer live increment).1.map
        (session.analysis.transfer live increment).2.table.nameSet =
          .ok {"al", "ax", "eax", "tmp"} ∧
      (session.analysis.effects (.assign "new" (.foreign "phi"))).1 = .error (.operand "phi") ∧
      (session.performAll [.effects .halt]).nameSet live = {"eax", "tmp"} := by
  intro session
  have names : session.sets[2]?.map session.nameSet = some {"eax", "tmp"} := by decide +kernel
  have effects : Architecture.x86.plainEffects increment =
      .ok ⟨{"eax", "ax", "al", "ah"}, {"al", "ax", "eax"}⟩ := by decide +kernel
  obtain ⟨live, found, named⟩ := Option.map_eq_some_iff.mp names
  obtain ⟨_, _, transfers, fails, keeps⟩ := calls_answered_plainly .x86 troubledCalls
  refine ⟨live, found, named, ?_, ?_, ?_⟩
  · rw [transfers live (List.mem_of_getElem? found) increment, named, Architecture.plainTransfer,
      effects]
    exact congrArg Except.ok (by decide)
  · exact (fails (.assign "new" (.foreign "phi")) (.operand "phi")).1.mpr (by decide +kernel)
  · rw [((keeps [.effects .halt]).1 2 live found).2, named]

end Session

end Analysis

end Deadwood
