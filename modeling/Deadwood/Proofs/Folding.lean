import Deadwood.Proofs.Path
import Deadwood.Proofs.Construction

namespace Deadwood

/-!
One control flow graph folded onto another. Nodes go to their representatives, and an edge goes to
the edge that stands for it or disappears between two nodes with one representative. Foldings
compose, and paths can be followed through them in both directions.
-/

variable {ν : Type} {edges middle after es fs : List (Edge ν)} {rep next : ν → ν}
  {image further : Edge ν → Option (Edge ν)} {gone lost : Nat → Prop} {l m : ν}

/-- `gone` tells the ids of edges that were taken out; an edge without an image carries the statement
of one of these, which leaves the same node. -/
structure Folding (edges after : List (Edge ν)) (rep : ν → ν) (image : Edge ν → Option (Edge ν))
    (gone : Nat → Prop) : Prop where
  kept : ∀ e ∈ edges, ∀ f, image e = some f → f ∈ after ∧ f.source = e.source ∧
    f.statement = e.statement ∧ f.target = rep e.target ∧ rep e.source = e.source
  folded : ∀ e ∈ edges, image e = none → rep e.source = rep e.target ∧ IsExit after e.source ∧
    ∃ d ∈ edges, gone d.id ∧ d.source = e.source ∧ d.statement = e.statement
  origin : ∀ f ∈ after, ∃ e ∈ edges, e.id = f.id ∧ image e = some f
  known : ∀ id, gone id → ∃ e ∈ edges, e.id = id
  removed : ∀ e ∈ edges, gone e.id → image e = none
  collapse : ∀ l, ∃ es, IsPath edges l es (rep l) ∧ ∀ e ∈ es, gone e.id

theorem IsPath.mem (path : IsPath edges l es m) : ∀ e ∈ es, e ∈ edges := by
  induction es generalizing l with
  | nil => simp
  | cons e es ih =>
      obtain ⟨member, _, rest⟩ := path
      intro f listed
      rcases List.mem_cons.mp listed with same | later
      · exact same ▸ member
      · exact ih rest f later

theorem IsPath.mono {others : List (Edge ν)} (within : ∀ e ∈ edges, e ∈ others)
    (path : IsPath edges l es m) : IsPath others l es m := by
  induction es generalizing l with
  | nil => exact path
  | cons e es ih =>
      obtain ⟨member, leaves, rest⟩ := path
      exact ⟨within e member, leaves, ih rest⟩

namespace Folding

theorem congr {input output : List (Edge ν)} (folding : Folding edges after rep image gone)
    (before : ∀ e, e ∈ input ↔ e ∈ edges) (behind : ∀ e, e ∈ output ↔ e ∈ after) :
    Folding input output rep image gone where
  kept e member f found := by
    obtain ⟨there, rest⟩ := folding.kept e ((before e).mp member) f found
    exact ⟨(behind f).mpr there, rest⟩
  folded e member none := by
    obtain ⟨same, exit, d, listed, rest⟩ := folding.folded e ((before e).mp member) none
    exact ⟨same, fun f there => exit f ((behind f).mp there), d, (before d).mpr listed, rest⟩
  origin f there := by
    obtain ⟨e, member, rest⟩ := folding.origin f ((behind f).mp there)
    exact ⟨e, (before e).mpr member, rest⟩
  known id out := by
    obtain ⟨e, member, same⟩ := folding.known id out
    exact ⟨e, (before e).mpr member, same⟩
  removed e member out := folding.removed e ((before e).mp member) out
  collapse l := by
    obtain ⟨es, path, all⟩ := folding.collapse l
    exact ⟨es, path.mono fun e member => (before e).mpr member, all⟩

theorem refl (edges : List (Edge ν)) : Folding edges edges id some (fun _ => False) where
  kept e member f same := by
    cases same
    exact ⟨member, rfl, rfl, rfl, rfl⟩
  folded e member none := by cases none
  origin f member := ⟨f, member, rfl, rfl⟩
  known id none := none.elim
  removed e member none := none.elim
  collapse l := ⟨[], rfl, by simp⟩

/-- A path goes to the path of the edges that stand for its edges. -/
theorem path (folding : Folding edges after rep image gone) (path : IsPath edges l es m) :
    IsPath after (rep l) (es.filterMap image) (rep m) := by
  induction es generalizing l with
  | nil => exact congrArg rep path
  | cons e es ih =>
      obtain ⟨member, rfl, rest⟩ := path
      cases found : image e with
      | none =>
          rw [List.filterMap_cons_none found, (folding.folded e member found).1]
          exact ih rest
      | some f =>
          obtain ⟨there, source, _, target, fixed⟩ := folding.kept e member f found
          rw [List.filterMap_cons_some found]
          exact ⟨there, source.trans fixed.symm, target ▸ ih rest⟩

theorem map_statement (folding : Folding edges after rep image gone) (path : IsPath edges l es m) :
    (es.filterMap image).map Edge.statement =
      (es.filter fun e => (image e).isSome).map Edge.statement := by
  induction es generalizing l with
  | nil => rfl
  | cons e es ih =>
      obtain ⟨member, _, rest⟩ := path
      cases found : image e with
      | none => simp [found, ih rest]
      | some f => simp [found, ih rest, (folding.kept e member f found).2.2.1]

theorem filterMap_gone (folding : Folding edges after rep image gone)
    (listed : ∀ e ∈ es, e ∈ edges) (all : ∀ e ∈ es, gone e.id) : es.filterMap image = [] :=
  List.filterMap_eq_nil_iff.mpr fun e member => folding.removed e (listed e member) (all e member)

theorem expand_edge (folding : Folding edges after rep image gone) {f : Edge ν}
    (member : f ∈ after) :
    ∃ e rest, IsPath edges f.source (e :: rest) f.target ∧ e.id = f.id ∧
      e.statement = f.statement ∧ image e = some f ∧ ∀ d ∈ rest, gone d.id := by
  obtain ⟨e, old, sameId, found⟩ := folding.origin f member
  obtain ⟨_, source, statement, target, _⟩ := folding.kept e old f found
  obtain ⟨rest, path, all⟩ := folding.collapse e.target
  exact ⟨e, rest, ⟨old, source.symm, target ▸ path⟩, sameId, statement.symm, found, all⟩

/-- Every path that is left comes from a path before, with edges in between that were taken out. -/
theorem expand (folding : Folding edges after rep image gone) (path : IsPath after l fs m) :
    ∃ es, IsPath edges l es m ∧ es.filterMap image = fs ∧
      ∀ e ∈ es, gone e.id ∨ ∃ f ∈ fs, e.id = f.id := by
  induction fs generalizing l with
  | nil => exact ⟨[], path, rfl, by simp⟩
  | cons f fs ih =>
      obtain ⟨member, rfl, rest⟩ := path
      obtain ⟨e, between, first, sameId, _, found, all⟩ := folding.expand_edge member
      obtain ⟨es, later, images, reasons⟩ := ih rest
      refine ⟨e :: between ++ es, first.append later, ?_, ?_⟩
      · have none := folding.filterMap_gone
          (fun d listed => first.mem d (List.mem_cons_of_mem _ listed)) all
        rw [List.filterMap_append, List.filterMap_cons_some found, none, images]
        rfl
      · intro d listed
        rcases List.mem_append.mp listed with first | later
        · rcases List.mem_cons.mp first with rfl | inside
          · exact .inr ⟨f, List.mem_cons_self, sameId⟩
          · exact .inl (all d inside)
        · refine (reasons d later).imp id fun ⟨c, listedC, same⟩ => ?_
          exact ⟨c, List.mem_cons_of_mem _ listedC, same⟩

theorem trans (identified : Edge.Identified edges)
    (first : Folding edges middle rep image gone) (second : Folding middle after next further lost) :
    Folding edges after (fun l => next (rep l)) (fun e => image e >>= further)
      (fun id => gone id ∨ lost id) where
  kept e member g found := by
    obtain ⟨f, imageE, imageF⟩ := Option.bind_eq_some_iff.mp found
    obtain ⟨inside, source, statement, target, fixed⟩ := first.kept e member f imageE
    obtain ⟨there, sourceF, statementF, targetF, fixedF⟩ := second.kept f inside g imageF
    refine ⟨there, sourceF.trans source, statementF.trans statement, target ▸ targetF, ?_⟩
    rw [fixed, ← source]
    exact fixedF
  folded e member vanishes := by
    cases imageE : image e with
    | none =>
        obtain ⟨same, exit, d, listed, out, source, statement⟩ := first.folded e member imageE
        refine ⟨congrArg next same, fun g there leaves => ?_, d, listed, .inl out, source, statement⟩
        obtain ⟨f, inside, _, found⟩ := second.origin g there
        exact exit f inside ((second.kept f inside g found).2.1.symm.trans leaves)
    | some f =>
        obtain ⟨inside, source, statement, target, fixed⟩ := first.kept e member f imageE
        have imageF : further f = none := by simpa [imageE] using vanishes
        obtain ⟨same, exit, c, inMiddle, out, sourceC, statementC⟩ :=
          second.folded f inside imageF
        obtain ⟨d, listed, sameId, found⟩ := first.origin c inMiddle
        obtain ⟨_, sourceD, statementD, _, _⟩ := first.kept d listed c found
        refine ⟨?_, source ▸ exit, d, listed, .inr (sameId ▸ out), ?_, ?_⟩
        · rw [fixed, ← target, ← source]
          exact same
        · rw [← sourceD, sourceC, source]
        · rw [← statementD, statementC, statement]
  origin g there := by
    obtain ⟨f, inside, sameF, imageF⟩ := second.origin g there
    obtain ⟨e, member, sameE, imageE⟩ := first.origin f inside
    exact ⟨e, member, sameE.trans sameF, by simpa [imageE] using imageF⟩
  known id out := by
    rcases out with early | late
    · exact first.known id early
    · obtain ⟨f, inside, rfl⟩ := second.known id late
      obtain ⟨e, member, same, _⟩ := first.origin f inside
      exact ⟨e, member, same⟩
  removed e member out := by
    rcases out with early | late
    · simp [first.removed e member early]
    · obtain ⟨f, inside, sameId⟩ := second.known e.id late
      obtain ⟨d, listed, same, imageD⟩ := first.origin f inside
      have itself : d = e := identified d listed e member (same.trans sameId)
      have imageF : further f = none := second.removed f inside (sameId ▸ late)
      simpa [← itself, imageD] using imageF
  collapse l := by
    obtain ⟨es, path, all⟩ := first.collapse l
    obtain ⟨fs, pathAfter, allAfter⟩ := second.collapse (rep l)
    obtain ⟨ds, expanded, _, reasons⟩ := first.expand pathAfter
    refine ⟨es ++ ds, path.append expanded, fun e listed => ?_⟩
    rcases List.mem_append.mp listed with early | late
    · exact .inl (all e early)
    · rcases reasons e late with out | ⟨f, inside, same⟩
      · exact .inl out
      · exact .inr (same ▸ allAfter f inside)

end Folding

end Deadwood
