import Deadwood.Edge
import Deadwood.Proofs.Transfer

namespace Deadwood

/-!
Paths through a control flow graph given by its edges, and liveness as a property of the paths that
start at a node. Edges count by their ends and statement, so copies may be left out.
-/

variable {ν : Type} {edges others es fs : List (Edge ν)} {l m n : ν}

/-- The edges lead one after the other from the first node to the second. -/
def IsPath (edges : List (Edge ν)) : ν → List (Edge ν) → ν → Prop
  | l, [], m => l = m
  | l, e :: es, m => e ∈ edges ∧ e.source = l ∧ IsPath edges e.target es m

theorem IsPath.append (first : IsPath edges l es m) (second : IsPath edges m fs n) :
    IsPath edges l (es ++ fs) n := by
  induction es generalizing l with
  | nil =>
      cases first
      exact second
  | cons e es ih =>
      obtain ⟨member, leaves, rest⟩ := first
      exact ⟨member, leaves, ih rest⟩

def IsExit (edges : List (Edge ν)) (n : ν) : Prop := ∀ e ∈ edges, e.source ≠ n

/-- A variable is live at a node if some path on which nothing kills it leads from there to an exit,
where every register counts, or to an edge that makes the variable live. -/
def LiveAt (a : Architecture) (edges : List (Edge ν)) (n : ν) (v : String) : Prop :=
  ∃ es m, IsPath edges n es m ∧ (∀ e ∈ es, ¬ a.Kills e.statement v) ∧
    (IsExit edges m ∧ v ∈ a.registerNames ∨
      ∃ e ∈ edges, e.source = m ∧ a.Gens e.statement v)

namespace LiveAt

variable {a : Architecture} {v : String} {e : Edge ν}

theorem exit (last : IsExit edges n) (register : v ∈ a.registerNames) : LiveAt a edges n v :=
  ⟨[], n, rfl, by simp, .inl ⟨last, register⟩⟩

theorem gen (member : e ∈ edges) (gens : a.Gens e.statement v) : LiveAt a edges e.source v :=
  ⟨[], e.source, rfl, by simp, .inr ⟨e, member, rfl, gens⟩⟩

theorem along (member : e ∈ edges) (kept : ¬ a.Kills e.statement v)
    (live : LiveAt a edges e.target v) : LiveAt a edges e.source v := by
  obtain ⟨es, m, path, unkilled, reason⟩ := live
  refine ⟨e :: es, m, ⟨member, rfl, path⟩, ?_, reason⟩
  intro f listed
  rcases List.mem_cons.mp listed with same | later
  · exact same ▸ kept
  · exact unkilled f later

/-- What a set of nodes needs in order to hold wherever a variable is live. -/
theorem elim {P : ν → Prop} (exits : ∀ n, IsExit edges n → v ∈ a.registerNames → P n)
    (gens : ∀ e ∈ edges, a.Gens e.statement v → P e.source)
    (back : ∀ e ∈ edges, ¬ a.Kills e.statement v → P e.target → P e.source)
    (live : LiveAt a edges n v) : P n := by
  obtain ⟨es, m, path, unkilled, reason⟩ := live
  induction es generalizing n with
  | nil =>
      cases path
      rcases reason with ⟨last, register⟩ | ⟨e, member, rfl, gen⟩
      · exact exits _ last register
      · exact gens e member gen
  | cons e es ih =>
      obtain ⟨member, rfl, rest⟩ := path
      exact back e member (unkilled e List.mem_cons_self)
        (ih rest fun f later => unkilled f (List.mem_cons_of_mem _ later))

theorem covering {wide : String} (live : LiveAt a edges n v)
    (covers : a.coverage.Covers wide v) : LiveAt a edges n wide := by
  refine elim (P := fun n => LiveAt a edges n wide) ?_ ?_ ?_ live
  · exact fun n last _ => exit last (Architecture.mem_registerNames_of_covers covers).1
  · exact fun e member gens => gen member (gens.covering covers)
  · exact fun e member kept later => along member (fun kills => kept (kills.covered covers)) later

theorem register_or_gens (live : LiveAt a edges n v) :
    v ∈ a.registerNames ∨ ∃ e ∈ edges, a.Gens e.statement v :=
  elim (P := fun _ => v ∈ a.registerNames ∨ ∃ e ∈ edges, a.Gens e.statement v)
    (fun _ _ register => .inl register) (fun e member gens => .inr ⟨e, member, gens⟩)
    (fun _ _ _ later => later) live

end LiveAt

/-- Every edge of the first list has a copy in the second. -/
def HaveCopies [DecidableEq ν] (edges others : List (Edge ν)) : Prop :=
  ∀ e ∈ edges, ∃ f ∈ others, e.isCopy f = true

theorem HaveCopies.isExit_iff [DecidableEq ν] (there : HaveCopies edges others)
    (back : HaveCopies others edges) : IsExit edges n ↔ IsExit others n := by
  have one {es fs : List (Edge ν)} (copies : HaveCopies fs es) (last : IsExit es n) :
      IsExit fs n := by
    intro f member leaves
    obtain ⟨e, listed, copy⟩ := copies f member
    exact last e listed ((Edge.isCopy_iff.mp copy).1 ▸ leaves)
  exact ⟨one back, one there⟩

theorem HaveCopies.liveAt_iff [DecidableEq ν] {a : Architecture} {v : String}
    (there : HaveCopies edges others) (back : HaveCopies others edges) :
    LiveAt a edges n v ↔ LiveAt a others n v := by
  have one {es fs : List (Edge ν)} (copies : HaveCopies es fs) (reverse : HaveCopies fs es)
      (live : LiveAt a es n v) : LiveAt a fs n v := by
    refine live.elim (P := fun n => LiveAt a fs n v) ?_ ?_ ?_
    · exact fun n last register => .exit ((copies.isExit_iff reverse).mp last) register
    · intro e member gens
      obtain ⟨f, listed, copy⟩ := copies e member
      obtain ⟨source, _, statement⟩ := Edge.isCopy_iff.mp copy
      exact source ▸ LiveAt.gen listed (statement ▸ gens)
    · intro e member kept later
      obtain ⟨f, listed, copy⟩ := copies e member
      obtain ⟨source, target, statement⟩ := Edge.isCopy_iff.mp copy
      exact source ▸ LiveAt.along listed (statement ▸ kept) (target ▸ later)
  exact ⟨one there back, one back there⟩

end Deadwood
