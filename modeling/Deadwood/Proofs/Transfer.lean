import Deadwood.Liveness.Analysis
import Deadwood.Proofs.Interning

namespace Deadwood

/-!
The effects of a statement as relations between variables, and what the analysis makes of them. The
numbers given to variables and the memo of effects do not show in the names that are live.
-/

def Statement.Defines (s : Statement) (v : String) : Prop :=
  ∃ names, s.defines = .ok names ∧ v ∈ names

def Statement.Reads (s : Statement) (v : String) : Prop :=
  ∃ names, s.reads = .ok names ∧ v ∈ names

namespace Architecture

variable {a : Architecture} {s : Statement} {v : String}

/-- What a statement defines and what that contains is dead before it. -/
def Kills (a : Architecture) (s : Statement) (v : String) : Prop :=
  ∃ d, s.Defines d ∧ (v = d ∨ a.coverage.Covers d v)

/-- What a statement reads and what contains that is live before it, and before an unknown procedure
every register is. -/
def Gens (a : Architecture) (s : Statement) (v : String) : Prop :=
  (∃ r, s.Reads r ∧ (v = r ∨ a.coverage.Covers v r)) ∨
    (∃ clobbered, s = .call clobbered) ∧ v ∈ a.registerNames

theorem kills_assign {lhs : String} {rhs : Expr} :
    a.Kills (.assign lhs rhs) v ↔ v = lhs ∨ v ∈ a.covered lhs := by
  simp [Kills, Statement.Defines, Statement.defines, covered, Coverage.mem_below]

theorem kills_call {clobbered : NameSet} :
    a.Kills (.call clobbered) v ↔ ∃ d ∈ clobbered.toList, v = d ∨ v ∈ a.covered d := by
  simp [Kills, Statement.Defines, Statement.defines, covered, Coverage.mem_below]

theorem not_kills_of_defines (nothing : s.defines = .ok []) : ¬ a.Kills s v := by
  simp [Kills, Statement.Defines, nothing]

theorem Gens.of_reads {names : List String} (found : s.reads = .ok names)
    (read : v ∈ names) : a.Gens s v :=
  .inl ⟨v, ⟨names, found, read⟩, .inl rfl⟩

theorem kills_eq_ok (a : Architecture) (native : s.IsNative) :
    ∃ names, a.kills s = .ok names ∧ ∀ v, v ∈ names ↔ a.Kills s v := by
  obtain ⟨defined, found⟩ := Statement.defines_isOk_of_isNative native
  refine ⟨_, by rw [kills, found]; rfl, fun v => ?_⟩
  simp only [List.mem_flatMap, List.mem_cons, covered, Coverage.mem_below, Kills,
    Statement.Defines, found, Except.ok.injEq, exists_eq_left']

theorem generates_eq_ok (a : Architecture) (native : s.IsNative) :
    ∃ names, a.generates s = .ok names ∧ ∀ v, v ∈ names ↔ a.Gens s v := by
  obtain ⟨read, found⟩ := Statement.reads_isOk_iff.mpr native
  have operands (v : String) :
      (v ∈ read.flatMap fun r => r :: a.covering r) ↔
        ∃ r, s.Reads r ∧ (v = r ∨ a.coverage.Covers v r) := by
    simp only [List.mem_flatMap, List.mem_cons, covering, Coverage.mem_above, Statement.Reads,
      found, Except.ok.injEq, exists_eq_left']
  cases s with
  | call clobbered =>
      refine ⟨_, by rw [generates, found]; rfl, fun v => ?_⟩
      rw [List.mem_append, operands v]
      simp [Gens]
  | assign | store | assume | skip | halt | foreign =>
      refine ⟨_, by rw [generates, found]; rfl, fun v => ?_⟩
      rw [operands v]
      simp [Gens]

theorem mem_registerNames_of_covers {wide part : String} (covers : a.coverage.Covers wide part) :
    wide ∈ a.registerNames ∧ part ∈ a.registerNames := by
  have mentions {p q : String} (direct : a.coverage.Direct p q) :
      p ∈ a.registerNames ∧ q ∈ a.registerNames := by
    refine ⟨a.declared p ?_, a.declared q ?_⟩ <;>
      rw [Coverage.mentioned, List.mem_eraseDups, List.mem_append]
    · exact .inl (List.mem_map_of_mem (f := Prod.fst) direct)
    · exact .inr (List.mem_map_of_mem (f := Prod.snd) direct)
  induction covers with
  | single direct => exact mentions direct
  | tail _ direct ih => exact ⟨ih.1, (mentions direct).2⟩

theorem Gens.covering {wide : String} (gens : a.Gens s v) (covers : a.coverage.Covers wide v) :
    a.Gens s wide := by
  rcases gens with ⟨r, read, rfl | inside⟩ | ⟨call, _⟩
  · exact .inl ⟨v, read, .inr covers⟩
  · exact .inl ⟨r, read, .inr (covers.trans inside)⟩
  · exact .inr ⟨call, (mem_registerNames_of_covers covers).1⟩

theorem Kills.covered {wide : String} (kills : a.Kills s wide)
    (covers : a.coverage.Covers wide v) : a.Kills s v := by
  obtain ⟨d, defined, rfl | inside⟩ := kills
  · exact ⟨wide, defined, .inr covers⟩
  · exact ⟨d, defined, .inr (inside.trans covers)⟩

end Architecture

namespace Analysis

variable {a b c : Analysis} {s : Statement} {e : Effects}

/-- Both effects are sets of known ids, and they name what the statement kills and generates. -/
structure Describes (a : Analysis) (s : Statement) (e : Effects) : Prop where
  kill_bounded : a.table.Bounds e.kill
  gen_bounded : a.table.Bounds e.gen
  kill_iff : ∀ v, a.isLive e.kill v = true ↔ a.architecture.Kills s v
  gen_iff : ∀ v, a.isLive e.gen v = true ↔ a.architecture.Gens s v

/-- The registers are numbered, and every remembered effect is the effect of its statement. -/
structure WellFormed (a : Analysis) : Prop where
  registers_bounded : a.table.Bounds a.registers
  registers_iff : ∀ v, a.isLive a.registers v = true ↔ v ∈ a.architecture.registerNames
  memo_describes : ∀ s e, (s, e) ∈ a.memo → a.Describes s e

structure GrowsTo (a b : Analysis) : Prop where
  architecture_eq : b.architecture = a.architecture
  registers_eq : b.registers = a.registers
  table : a.table.GrowsTo b.table

theorem GrowsTo.refl (a : Analysis) : a.GrowsTo a := ⟨rfl, rfl, .refl _⟩

theorem GrowsTo.trans (first : a.GrowsTo b) (second : b.GrowsTo c) : a.GrowsTo c :=
  ⟨second.architecture_eq.trans first.architecture_eq,
    second.registers_eq.trans first.registers_eq, first.table.trans second.table⟩

theorem GrowsTo.isLive_iff (grown : a.GrowsTo b) {live : VarSet} (bounded : a.table.Bounds live)
    (v : String) : b.isLive live v = true ↔ a.isLive live v = true :=
  grown.table.holds_iff bounded

theorem Describes.mono (described : a.Describes s e) (grown : a.GrowsTo b) : b.Describes s e where
  kill_bounded := described.kill_bounded.mono grown.table
  gen_bounded := described.gen_bounded.mono grown.table
  kill_iff v := by
    rw [grown.isLive_iff described.kill_bounded, described.kill_iff, grown.architecture_eq]
  gen_iff v := by
    rw [grown.isLive_iff described.gen_bounded, described.gen_iff, grown.architecture_eq]

theorem ofArchitecture_wellFormed (architecture : Architecture) :
    (ofArchitecture architecture).WellFormed := by
  obtain ⟨_, bounded, holds⟩ :=
    (Universe.ofVars architecture.registers).internAll_spec architecture.registers
  exact ⟨bounded, holds, fun s e member => by cases member⟩

theorem WellFormed.describes (wellFormed : a.WellFormed) (known : a.memo.lookup s = some e) :
    a.Describes s e := by
  obtain ⟨before, after, split, _⟩ := List.lookup_eq_some_iff.mp known
  refine wellFormed.memo_describes s e ?_
  rw [split]
  exact List.mem_append_right _ List.mem_cons_self

theorem effects_eq_ok (wellFormed : a.WellFormed) (native : s.IsNative) :
    ∃ e b, a.effects s = (.ok e, b) ∧ a.GrowsTo b ∧ b.WellFormed ∧ b.Describes s e := by
  cases known : a.memo.lookup s with
  | some e =>
      exact ⟨e, a, by simp only [effects, known], .refl a, wellFormed, wellFormed.describes known⟩
  | none =>
      obtain ⟨killed, foundKills, killsIff⟩ := a.architecture.kills_eq_ok native
      obtain ⟨generated, foundGens, gensIff⟩ := a.architecture.generates_eq_ok native
      obtain ⟨firstGrown, killBounded, killHolds⟩ := a.table.internNames_spec killed
      obtain ⟨secondGrown, genBounded, genHolds⟩ :=
        (a.table.internNames killed).2.internNames_spec generated
      let kill := (a.table.internNames killed).1
      let gen := ((a.table.internNames killed).2.internNames generated).1
      let table := ((a.table.internNames killed).2.internNames generated).2
      let final : Analysis := { a with table, memo := (s, ⟨kill, gen⟩) :: a.memo }
      have grown : a.GrowsTo final := ⟨rfl, rfl, firstGrown.trans secondGrown⟩
      have described : final.Describes s ⟨kill, gen⟩ :=
        { kill_bounded := killBounded.mono secondGrown
          gen_bounded := genBounded
          kill_iff := fun v =>
            (secondGrown.holds_iff killBounded).trans ((killHolds v).trans (killsIff v))
          gen_iff := fun v => (genHolds v).trans (gensIff v) }
      refine ⟨⟨kill, gen⟩, final, ?_, grown, ⟨?_, ?_, ?_⟩, described⟩
      · simp only [effects, known, freshEffects, foundKills, foundGens]
        rfl
      · exact wellFormed.registers_bounded.mono grown.table
      · intro v
        exact (grown.isLive_iff wellFormed.registers_bounded v).trans (wellFormed.registers_iff v)
      · intro t f member
        rcases List.mem_cons.mp member with same | old
        · cases same
          exact described
        · exact (wellFormed.memo_describes t f old).mono grown

/-- What is live before a native statement: all it makes live, and what was live behind it and is
not killed. -/
theorem transfer_eq_ok (wellFormed : a.WellFormed) (native : s.IsNative) {live : VarSet}
    (bounded : a.table.Bounds live) :
    ∃ result b, a.transfer live s = (.ok result, b) ∧ a.GrowsTo b ∧ b.WellFormed ∧
      b.table.Bounds result ∧ ∀ v, b.isLive result v = true ↔
        a.architecture.Gens s v ∨ ¬ a.architecture.Kills s v ∧ a.isLive live v = true := by
  obtain ⟨e, b, found, grown, formed, described⟩ := effects_eq_ok wellFormed native
  have kept := bounded.mono grown.table
  refine ⟨e.apply live, b, by simp only [transfer, found]; rfl, grown, formed,
    kept.diff.union described.gen_bounded, fun v => ?_⟩
  have gens := described.gen_iff v
  have kills := described.kill_iff v
  have before := grown.isLive_iff bounded v
  rw [grown.architecture_eq] at gens kills
  simp only [isLive] at gens kills before ⊢
  rw [Effects.apply, Universe.holds_union, Universe.holds_diff, gens, kills, before]
  constructor
  · intro given
    rcases given with ⟨after, notKilled⟩ | gen
    · exact .inr ⟨notKilled, after⟩
    · exact .inl gen
  · intro given
    rcases given with gen | ⟨notKilled, after⟩
    · exact .inr gen
    · exact .inl ⟨after, notKilled⟩

end Analysis

end Deadwood
