import Mathlib.Logic.Relation
import Deadwood.Proofs.Transfer

namespace Deadwood

/-!
Which registers contain which, told by a description. Main statement: a description is refused exactly
if its declarations lead in a circle or name something that is no register; else both tables of the
architecture hold the transitive closure of what was declared.
-/

open Relation (TransGen)

namespace Coverage

variable {c : Coverage} {declarations : List (String × List String)} {wide part v : String}

/-- The wide register is declared to have the part. Of several declarations for it the last counts. -/
def Declares (declarations : List (String × List String)) (wide part : String) : Prop :=
  ∃ parts, declarations.reverse.lookup wide = some parts ∧ part ∈ parts

/-- The variable is declared to have a part or to be one. -/
def Mentions (declarations : List (String × List String)) (v : String) : Prop :=
  (∃ part, Declares declarations v part) ∨ ∃ wide, Declares declarations wide v

theorem lookup_reverse_eq_none_iff :
    declarations.reverse.lookup v = none ↔ v ∉ declarations.map Prod.fst := by
  rw [List.lookup_eq_none_iff]
  simp only [List.mem_reverse, bne_iff_ne, List.mem_map, not_exists, not_and, ne_comm]

theorem lookup_singleton_of_ne {key : String} {parts : List String} (apart : v ≠ key) :
    [(key, parts)].lookup v = none := by
  simpa [List.lookup_eq_none_iff] using apart

theorem mem_lastDeclarations {parts : List String} :
    (wide, parts) ∈ lastDeclarations declarations ↔
      declarations.reverse.lookup wide = some parts := by
  induction declarations with
  | nil => simp [lastDeclarations]
  | cons d later ih =>
      obtain ⟨key, value⟩ := d
      rw [List.reverse_cons, List.lookup_append]
      by_cases replaced : key ∈ later.map Prod.fst
      · rw [lastDeclarations, if_pos replaced, ih]
        by_cases same : wide = key
        · obtain ⟨found, known⟩ : ∃ found, later.reverse.lookup key = some found := by
            rw [← Option.ne_none_iff_exists', Ne, lookup_reverse_eq_none_iff]
            exact fun absent => absent replaced
          rw [same, known, Option.some_or]
        · rw [lookup_singleton_of_ne same, Option.or_none]
      · rw [lastDeclarations, if_neg replaced, List.mem_cons, ih]
        by_cases same : wide = key
        · have unknown := lookup_reverse_eq_none_iff.mpr replaced
          simp [same, unknown, eq_comm]
        · rw [lookup_singleton_of_ne same, Option.or_none, Prod.mk.injEq]
          exact or_iff_right fun equal => same equal.1

theorem direct_ofDeclarations :
    (ofDeclarations declarations).Direct wide part ↔ Declares declarations wide part := by
  simp only [Direct, ofDeclarations, Declares, ← mem_lastDeclarations, List.mem_flatMap,
    List.mem_map, Prod.mk.injEq]
  constructor
  · rintro ⟨⟨_, parts⟩, declared, _, member, rfl, rfl⟩
    exact ⟨parts, declared, member⟩
  · rintro ⟨parts, declared, member⟩
    exact ⟨(wide, parts), declared, part, member, rfl, rfl⟩

theorem covers_ofDeclarations :
    (ofDeclarations declarations).Covers = TransGen (Declares declarations) := by
  unfold Covers
  congr
  funext wide part
  exact propext direct_ofDeclarations

theorem mem_mentioned : v ∈ c.mentioned ↔ (∃ part, c.Direct v part) ∨ ∃ wide, c.Direct wide v := by
  simp [mentioned, Direct]

theorem mem_mentioned_ofDeclarations :
    v ∈ (ofDeclarations declarations).mentioned ↔ Mentions declarations v := by
  simp only [mem_mentioned, direct_ofDeclarations, Mentions]

/-- It is enough to look for cycles through what is mentioned. -/
theorem acyclic_iff :
    (∀ v ∈ c.mentioned, v ∉ c.below v) ↔ ¬ ∃ v, c.Covers v v := by
  simp only [mem_below, not_exists]
  constructor
  · intro acyclic v covers
    obtain ⟨part, direct, _⟩ := TransGen.head'_iff.mp covers
    exact acyclic v (mem_mentioned.mpr (.inl ⟨part, direct⟩)) covers
  · exact fun acyclic v _ => acyclic v

end Coverage

theorem mem_map_distinctVars {vs : List Var} {v : String} :
    v ∈ (distinctVars vs).map Var.name ↔ v ∈ vs.map Var.name := by
  induction vs with
  | nil => rfl
  | cons first vs ih =>
      rw [distinctVars, List.map_cons, List.mem_cons, List.map_cons, List.mem_cons, ← ih]
      by_cases same : v = first.name
      · simp [same]
      · simp only [same, false_or, List.mem_map, List.mem_filter]
        constructor
        · rintro ⟨w, ⟨member, _⟩, rfl⟩
          exact ⟨w, member, rfl⟩
        · rintro ⟨w, member, rfl⟩
          exact ⟨w, ⟨member, by simpa using same⟩, rfl⟩

namespace Architecture

open Coverage (Declares Mentions)

variable {name : String} {registers : List Var} {declarations : List (String × List String)}
  {a : Architecture} {u v : String}

theorem ofDescription_of_cycle (cyclic : ∃ v, TransGen (Declares declarations) v v) :
    ofDescription name registers declarations = .error (.cycle name) := by
  rw [← Coverage.covers_ofDeclarations] at cyclic
  rw [ofDescription, dif_neg fun acyclic => Coverage.acyclic_iff.mp acyclic cyclic]

theorem ofDescription_of_undeclared (acyclic : ¬ ∃ v, TransGen (Declares declarations) v v)
    (undeclared : ∃ v, Mentions declarations v ∧ v ∉ registers.map Var.name) :
    ∃ names, ofDescription name registers declarations = .error (.undeclared names) ∧
      ∀ v, v ∈ names ↔ Mentions declarations v ∧ v ∉ registers.map Var.name := by
  rw [← Coverage.covers_ofDeclarations] at acyclic
  obtain ⟨u, named, unknown⟩ := undeclared
  have missing : ¬ ∀ v ∈ (Coverage.ofDeclarations declarations).mentioned,
      v ∈ (distinctVars registers).map Var.name := fun declared =>
    unknown (mem_map_distinctVars.mp
      (declared u (Coverage.mem_mentioned_ofDeclarations.mpr named)))
  refine ⟨SortedSet.ofList ((Coverage.ofDeclarations declarations).mentioned.filter
    (· ∉ (distinctVars registers).map Var.name)), ?_, fun v => ?_⟩
  · rw [ofDescription, dif_pos (Coverage.acyclic_iff.mpr acyclic), dif_neg missing]
  · rw [SortedSet.mem_ofList, List.mem_filter, Coverage.mem_mentioned_ofDeclarations,
      decide_eq_true_eq, mem_map_distinctVars]

theorem ofDescription_of_declared (acyclic : ¬ ∃ v, TransGen (Declares declarations) v v)
    (declared : ∀ v, Mentions declarations v → v ∈ registers.map Var.name) :
    ∃ a, ofDescription name registers declarations = .ok a ∧ a.name = name ∧
      a.coverage = .ofDeclarations declarations ∧
      ∀ v, v ∈ a.registerNames ↔ v ∈ registers.map Var.name := by
  rw [← Coverage.covers_ofDeclarations] at acyclic
  have known : ∀ v ∈ (Coverage.ofDeclarations declarations).mentioned,
      v ∈ (distinctVars registers).map Var.name := fun v mentioned =>
    mem_map_distinctVars.mpr (declared v (Coverage.mem_mentioned_ofDeclarations.mp mentioned))
  refine ⟨{ name, registers := distinctVars registers
            coverage := .ofDeclarations declarations
            distinct := distinctVars_nodup _
            acyclic := Coverage.acyclic_iff.mpr acyclic
            declared := known }, ?_, rfl, rfl, fun v => mem_map_distinctVars⟩
  rw [ofDescription, dif_pos (Coverage.acyclic_iff.mpr acyclic), dif_pos known]

/-- An architecture holds the transitive closure of what was declared, in both of its tables. -/
structure Closes (a : Architecture) (registers : List Var)
    (declarations : List (String × List String)) : Prop where
  registers_iff : ∀ v, v ∈ a.registerNames ↔ v ∈ registers.map Var.name
  covered_iff : ∀ u v, u ∈ a.covered v ↔ TransGen (Declares declarations) v u
  covering_iff : ∀ u v, v ∈ a.covering u ↔ TransGen (Declares declarations) v u
  irreflexive : ∀ v, v ∉ a.covered v
  transitive : ∀ u v w, v ∈ a.covered u → w ∈ a.covered v → w ∈ a.covered u
  between_registers : ∀ u v, u ∈ a.covered v →
    u ∈ registers.map Var.name ∧ v ∈ registers.map Var.name
  outside : ∀ v, v ∉ registers.map Var.name → a.covered v = [] ∧ a.covering v = []

theorem closes_of_coverage (coverage : a.coverage = .ofDeclarations declarations)
    (known : ∀ v, v ∈ a.registerNames ↔ v ∈ registers.map Var.name) :
    a.Closes registers declarations := by
  have covers : a.coverage.Covers = TransGen (Declares declarations) := by
    rw [coverage, Coverage.covers_ofDeclarations]
  have ends {wide part : String} (contains : a.coverage.Covers wide part) :
      part ∈ registers.map Var.name ∧ wide ∈ registers.map Var.name := by
    obtain ⟨first, second⟩ := mem_registerNames_of_covers contains
    exact ⟨(known part).mp second, (known wide).mp first⟩
  exact
    { registers_iff := known
      covered_iff := fun u v => by rw [covered, Coverage.mem_below, covers]
      covering_iff := fun u v => by rw [covering, Coverage.mem_above, covers]
      irreflexive := fun v contains =>
        Coverage.acyclic_iff.mp a.acyclic ⟨v, Coverage.mem_below.mp contains⟩
      transitive := fun u v w first second =>
        Coverage.mem_below.mpr
          ((Coverage.mem_below.mp first).trans (Coverage.mem_below.mp second))
      between_registers := fun u v contains => ends (Coverage.mem_below.mp contains)
      outside := fun v foreign => by
        refine ⟨List.eq_nil_iff_forall_not_mem.mpr fun u contains => ?_,
          List.eq_nil_iff_forall_not_mem.mpr fun u contains => ?_⟩
        · exact foreign (ends (Coverage.mem_below.mp contains)).2
        · exact foreign (ends (Coverage.mem_above.mp contains)).1 }

/-- A description is refused exactly if its declarations lead from some name back to it, and then the
cycle is reported, or else if they name something that is no register, and then all such names are. One
that is accepted gives the transitive closure of the declarations, read downwards and upwards. -/
theorem ofDescription_closes_declarations (name : String) (registers : List Var)
    (declarations : List (String × List String)) :
    let built := ofDescription name registers declarations
    let cyclic := ∃ v, TransGen (Declares declarations) v v
    let undeclared := fun v => Mentions declarations v ∧ v ∉ registers.map Var.name
    ((∃ refusal, built = .error refusal) ↔ cyclic ∨ ∃ v, undeclared v) ∧
    (built = .error (.cycle name) ↔ cyclic) ∧
    (∀ names, built = .error (.undeclared names) ↔
      ¬ cyclic ∧ (∃ v, undeclared v) ∧ ∀ v, v ∈ names ↔ undeclared v) ∧
    ∀ a, built = .ok a → a.name = name ∧ a.Closes registers declarations := by
  intro built cyclic undeclared
  by_cases circle : cyclic
  · have refused : built = .error (.cycle name) := ofDescription_of_cycle circle
    simp [refused, circle]
  by_cases foreign : ∃ v, undeclared v
  · obtain ⟨found, refused, listed⟩ :
        ∃ names, built = .error (.undeclared names) ∧ ∀ v, v ∈ names ↔ undeclared v :=
      ofDescription_of_undeclared circle foreign
    refine ⟨iff_of_true ⟨_, refused⟩ (.inr foreign), iff_of_false (by simp [refused]) circle,
      fun names => ?_, by simp [refused]⟩
    rw [refused, Except.error.injEq, Refusal.undeclared.injEq]
    constructor
    · rintro rfl
      exact ⟨circle, foreign, listed⟩
    · intro same
      exact SortedSet.ext fun v => (listed v).trans (same.2.2 v).symm
  · have declared : ∀ v, Mentions declarations v → v ∈ registers.map Var.name := fun v named =>
      Classical.byContradiction fun unknown => foreign ⟨v, named, unknown⟩
    obtain ⟨a, accepted, named, coverage, known⟩ :
        ∃ a, built = .ok a ∧ a.name = name ∧ a.coverage = .ofDeclarations declarations ∧
          ∀ v, v ∈ a.registerNames ↔ v ∈ registers.map Var.name :=
      ofDescription_of_declared circle declared
    refine ⟨iff_of_false (by simp [accepted]) (not_or.mpr ⟨circle, foreign⟩),
      iff_of_false (by simp [accepted]) circle,
      fun names => iff_of_false (by simp [accepted]) fun told => foreign told.2.1, ?_⟩
    intro b same
    cases accepted.symm.trans same
    exact ⟨named, closes_of_coverage coverage known⟩

/-- Two halves that share a part. The first declaration is replaced by a later one, and the last one
declares nothing. -/
def sharedPart : List (String × List String) :=
  [("low", ["wide"]), ("wide", ["low", "high", "low"]), ("low", ["flag"]), ("high", ["flag"]),
   ("other", [])]

/-- The shared part is in the whole, by either half. With one more declaration the cycle is reported,
not the unknown name. -/
theorem sharedPart_closed :
    let registers : List Var := [⟨"wide", 32⟩, ⟨"low", 16⟩, ⟨"high", 16⟩, ⟨"flag", 1⟩, ⟨"low", 8⟩]
    (∃ a, ofDescription "split" registers sharedPart = .ok a ∧ "flag" ∈ a.covered "wide" ∧
      "wide" ∈ a.covering "flag" ∧ "flag" ∉ a.covered "flag" ∧ a.covered "other" = []) ∧
    ofDescription "ring" registers (sharedPart ++ [("flag", ["wide", "spare"])]) =
      .error (.cycle "ring") := by
  intro registers
  have accepted : (ofDescription "split" registers sharedPart).isOk = true := by decide +kernel
  constructor
  · cases built : ofDescription "split" registers sharedPart with
    | error refusal => simp [built, Except.isOk, Except.toBool] at accepted
    | ok a =>
        obtain ⟨_, _, _, closes⟩ := ofDescription_closes_declarations "split" registers sharedPart
        obtain ⟨_, closed⟩ := closes a built
        have chain : TransGen (Declares sharedPart) "wide" "flag" :=
          .tail (.single ⟨["low", "high", "low"], rfl, by simp⟩) (b := "low") ⟨["flag"], rfl, by simp⟩
        exact ⟨a, rfl, (closed.covered_iff "flag" "wide").mpr chain,
          (closed.covering_iff "flag" "wide").mpr chain, closed.irreflexive "flag",
          (closed.outside "other" (by decide)).1⟩
  · have ring : TransGen (Declares (sharedPart ++ [("flag", ["wide", "spare"])])) "wide" "wide" :=
      .tail (.tail (.single ⟨["low", "high", "low"], rfl, by simp⟩) (b := "low")
        ⟨["flag"], rfl, by simp⟩) (b := "flag") ⟨["wide", "spare"], rfl, by simp⟩
    exact (ofDescription_closes_declarations "ring" registers _).2.1.mpr ⟨"wide", ring⟩

end Architecture

end Deadwood
