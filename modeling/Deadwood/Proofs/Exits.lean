import Deadwood.Proofs.Arms

namespace Deadwood

/-!
Where control flow ends. The removal of a loop leaves its location without a way out, and if other
edges lead there the location stays as an exit. Main statement: what is an exit after some removals
was one at first, or else it is what is left of an endless loop. Nothing led from there to an exit,
and every edge that could be reached from there has been removed.
-/

variable {ν : Type} {input others edges after : List (Edge ν)} {threading : Bool} {l m n : ν}

/-- A path leads from the first node to the second. -/
def Leads (edges : List (Edge ν)) (l m : ν) : Prop := ∃ es, IsPath edges l es m

/-- Control that came to the node among the first edges went round for ever, and nothing of that is
left: there was a way back, there was none to an exit, and every edge ahead could be removed and is
gone together with all others from its source. -/
structure Endless (threading : Bool) (input edges : List (Edge ν)) (n : ν) : Prop where
  loops : ∃ e ∈ input, e.source = n ∧ Leads input e.target n
  exitless : ∀ m, Leads input n m → ¬ IsExit input m
  removed : ∀ e ∈ input, Leads input n e.source →
    e.statement.isRemovable threading = true ∧ IsExit edges e.source

theorem IsPath.eq_nil_of_isExit {es : List (Edge ν)} (path : IsPath edges l es m)
    (last : IsExit edges l) : es = [] ∧ l = m := by
  cases es with
  | nil => exact ⟨rfl, path⟩
  | cons e es => exact absurd path.2.1 (last e path.1)

theorem HaveCopies.leads [DecidableEq ν] (copies : HaveCopies edges others)
    (leads : Leads edges l m) : Leads others l m := by
  obtain ⟨es, path⟩ := leads
  induction es generalizing l with
  | nil => exact ⟨[], path⟩
  | cons e es ih =>
      obtain ⟨member, rfl, rest⟩ := path
      obtain ⟨f, listed, copy⟩ := copies e member
      obtain ⟨source, target, _⟩ := Edge.isCopy_iff.mp copy
      obtain ⟨fs, later⟩ := ih rest
      exact ⟨f :: fs, listed, source.symm, target ▸ later⟩

/-- Copies of edges make no difference to what lies ahead of a node. -/
theorem Endless.of_copies [DecidableEq ν] (endless : Endless threading input edges n)
    (there : HaveCopies input others) (back : HaveCopies others input) :
    Endless threading others edges n where
  loops := by
    obtain ⟨e, member, leaves, returns⟩ := endless.loops
    obtain ⟨f, listed, copy⟩ := there e member
    obtain ⟨source, target, _⟩ := Edge.isCopy_iff.mp copy
    exact ⟨f, listed, source.symm.trans leaves, target ▸ there.leads returns⟩
  exitless m leads last := endless.exitless m (back.leads leads) ((there.isExit_iff back).mpr last)
  removed f listed leads := by
    obtain ⟨e, member, copy⟩ := back f listed
    obtain ⟨source, _, statement⟩ := Edge.isCopy_iff.mp copy
    rw [source, statement]
    exact endless.removed e member (source ▸ back.leads leads)

namespace Folding

variable {rep : ν → ν} {image : Edge ν → Option (Edge ν)} {gone : Nat → Prop}

/-- All that lay ahead of a node without a way out has been folded into the node. -/
theorem rep_eq_of_leads (folding : Folding edges after rep image gone) (fixed : rep n = n)
    (last : IsExit after n) (leads : Leads edges n m) : rep m = n := by
  obtain ⟨es, path⟩ := leads
  have image := folding.path path
  rw [fixed] at image
  exact (image.eq_nil_of_isExit last).2.symm

theorem image_eq_none_of_leads (folding : Folding edges after rep image gone) (fixed : rep n = n)
    (last : IsExit after n) {e : Edge ν} (member : e ∈ edges) (leads : Leads edges n e.source) :
    image e = none := by
  cases found : image e with
  | none => rfl
  | some f =>
      obtain ⟨there, source, _, _, fixedSource⟩ := folding.kept e member f found
      have atNode := folding.rep_eq_of_leads fixed last leads
      rw [fixedSource] at atNode
      exact absurd (source.trans atNode) (last f there)

theorem endless (folding : Folding edges after rep image gone) (fixed : rep n = n)
    (last : IsExit after n) (begun : ¬ IsExit edges n)
    (removable : ∀ e ∈ edges, gone e.id → e.statement.isRemovable threading = true) :
    Endless threading edges after n where
  loops := by
    obtain ⟨e, member, leaves⟩ : ∃ e ∈ edges, e.source = n := by simpa [IsExit] using begun
    obtain ⟨es, path, _⟩ := folding.collapse e.target
    have ahead : Leads edges n e.target := ⟨[e], member, leaves, rfl⟩
    rw [folding.rep_eq_of_leads fixed last ahead] at path
    exact ⟨e, member, leaves, es, path⟩
  exitless m leads exit := by
    have itself : m = n := (folding.isExit exit).1.symm.trans
      (folding.rep_eq_of_leads fixed last leads)
    exact begun (itself ▸ exit)
  removed e member leads := by
    have vanished := folding.image_eq_none_of_leads fixed last member leads
    obtain ⟨_, exit, d, listed, out, _, statement⟩ := folding.folded e member vanished
    exact ⟨statement ▸ removable d listed out, exit⟩

end Folding

namespace Pass

variable {p start : Pass} {removals : List Removal} {l : Location}

theorem Clears.isRemovable (clears : start.Clears removals p) {e : Edge Location}
    (member : e ∈ start.graph.edges) (out : ∃ r ∈ removals, r.edge.id = e.id) :
    e.statement.isRemovable start.threading = true := by
  obtain ⟨r, listed, sameId⟩ := out
  obtain ⟨d, inside, sameD, statement⟩ := clears.progress.exists_of_mem listed
  have itself : d = e := start.graph.eq_of_id_eq inside member (sameD.trans sameId)
  rw [← itself, statement]
  exact clears.removable r listed

theorem Clears.isExit_iff (clears : start.Clears removals p) (left : l ∈ p.graph.nodes) :
    IsExit p.graph.edges l ↔ IsExit start.graph.edges l ∨
      Endless start.threading start.graph.edges p.graph.edges l := by
  have folding := clears.progress.folding
  constructor
  · intro last
    refine Classical.or_iff_not_imp_left.mpr fun begun => ?_
    exact folding.endless (clears.progress.representative_eq_self left) last begun
      fun e member out => clears.isRemovable member out
  · rintro (first | endless)
    · exact (folding.isExit first).2
    · obtain ⟨e, member, rfl, _⟩ := endless.loops
      exact (endless.removed e member ⟨[], rfl⟩).2

theorem mem_sinks {g : Graph Location} : l ∈ g.sinks ↔ l ∈ g.nodes ∧ IsExit g.edges l := by
  rw [Graph.isExit_iff_outgoing, ← List.length_eq_zero_iff]
  simp [Graph.sinks, Graph.outDegree]

theorem haveCopies_ofEdges (program : Program) (threading : Bool) {edges : List (Edge Location)}
    (identified : Edge.Identified edges) :
    HaveCopies edges (ofEdges program threading edges).graph.edges ∧
      HaveCopies (ofEdges program threading edges).graph.edges edges := by
  have same {e : Edge Location} := mem_graph_ofEdges program threading identified (e := e)
  constructor
  · intro e member
    obtain ⟨f, inside, copy⟩ := Edge.haveCopies_arrange edges e member
    exact ⟨f, same.mpr inside, copy⟩
  · exact Edge.haveCopies_of_subset fun e member => Edge.mem_of_mem_arrange (same.mp member)

/-- The exits that are left are those there were at first, and what is left of endless loops. -/
theorem reached_sinks_iff (program : Program) (threading : Bool)
    (schedule : Nat → Schedule Location) {edges : List (Edge Location)}
    (identified : Edge.Identified edges) :
    let start := { ofEdges program threading edges with schedule }
    ∀ p, Reached start p → ∀ l, l ∈ p.graph.sinks ↔
      l ∈ p.graph.nodes ∧ (IsExit edges l ∨ Endless threading edges p.graph.edges l) := by
  intro start p reached l
  obtain ⟨there, back⟩ := haveCopies_ofEdges program threading identified
  have endlessIff : Endless threading start.graph.edges p.graph.edges l ↔
      Endless threading edges p.graph.edges l :=
    ⟨fun endless => endless.of_copies back there, fun endless => endless.of_copies there back⟩
  obtain ⟨_, clears⟩ := reached.clears
  rw [mem_sinks, and_congr_right_iff]
  intro left
  rw [clears.isExit_iff left, back.isExit_iff there]
  exact or_congr_right endlessIff

/-- A store, and behind it two locations between which control goes to and fro. -/
def closedLoop : List (Edge Location) :=
  [⟨0, ⟨0x1000, 0⟩, ⟨0x1001, 0⟩, .store (.var "eax") (.var "ebx")⟩,
   ⟨1, ⟨0x1001, 0⟩, ⟨0x1002, 0⟩, .skip⟩,
   ⟨2, ⟨0x1002, 0⟩, ⟨0x1001, 0⟩, .assign "ecx" (.const 1 32)⟩,
   ⟨3, ⟨0x1000, 0⟩, ⟨0x1003, 0⟩, .halt⟩]

theorem closedLoop_sinks :
    let start := ofEdges { architecture := .x86 } false closedLoop
    Edge.Identified closedLoop ∧ (start.run {}).pass.graph.sinks = [⟨0x1003, 0⟩, ⟨0x1002, 0⟩] ∧
      IsExit closedLoop ⟨0x1003, 0⟩ ∧
      Endless false closedLoop (start.run {}).pass.graph.edges ⟨0x1002, 0⟩ := by
  intro start
  have identified : Edge.Identified closedLoop := by decide +kernel
  have sinks : (start.run {}).pass.graph.sinks = [⟨0x1003, 0⟩, ⟨0x1002, 0⟩] := by decide +kernel
  have exitIff := reached_sinks_iff { architecture := .x86 } false (fun _ => .smallest) identified
    _ (.run .start {})
  have last : IsExit closedLoop ⟨0x1003, 0⟩ := by
    unfold IsExit
    decide +kernel
  have begun : ¬ IsExit closedLoop ⟨0x1002, 0⟩ := by
    unfold IsExit
    decide +kernel
  have gained : ⟨0x1002, 0⟩ ∈ (start.run {}).pass.graph.sinks := by simp [sinks]
  exact ⟨identified, sinks, last, ((exitIff ⟨0x1002, 0⟩).mp gained).2.resolve_left begun⟩

/-- A store, and behind it a location where control stays. -/
def idleLoop : List (Edge Location) :=
  [⟨0, ⟨0x1000, 0⟩, ⟨0x1001, 0⟩, .store (.mem (.var "eax") 32) (.var "ebx")⟩,
   ⟨1, ⟨0x1001, 0⟩, ⟨0x1001, 0⟩, .skip⟩]

/-- The elimination makes an exit of a location that had a way out. -/
theorem idleLoop_gains_exit :
    ⟨0x1001, 0⟩ ∈ ((ofEdges { architecture := .x86 } false idleLoop).run {}).pass.graph.sinks ∧
      ¬ IsExit idleLoop ⟨0x1001, 0⟩ := by
  unfold IsExit
  decide +kernel

end Pass

end Deadwood
