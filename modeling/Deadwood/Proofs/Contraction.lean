import Deadwood.Elimination.Contraction
import Deadwood.Proofs.Construction

namespace Deadwood

/-!
What is left of a graph after a contraction, edge by edge: every other edge is there with its target
moved past the edge taken out, or else it was merged and an equal edge is there.
-/

variable {ν : Type} [DecidableEq ν]

/-- Where a way to a node leads once the edge has been taken out. -/
def Edge.bypass (d : Edge ν) (l : ν) : ν := if l = d.source then d.target else l

def Edge.past (d e : Edge ν) : Edge ν := { e with target := d.bypass e.target }

namespace Graph

variable {g h : Graph ν} {target n : ν} {d e f : Edge ν} {es merged : List (Edge ν)}

theorem mem_edges_redirect (member : e ∈ g.edges) :
    f ∈ (g.redirect e.id target).edges ↔
      f = { e with target } ∨ f ∈ g.edges ∧ f.id ≠ e.id := by
  have absent : (g.erase e.id).has ({ e with target } : Edge ν).id = false := g.has_erase e.id
  rw [redirect, find?_eq_some_iff.mpr ⟨member, rfl⟩]
  dsimp only
  rw [mem_edges_insert absent, mem_edges_erase]

theorem mem_nodes_redirect (member : e ∈ g.edges) :
    n ∈ (g.redirect e.id target).nodes ↔ n ∈ g.nodes ∨ n = target := by
  have absent : (g.erase e.id).has ({ e with target } : Edge ν).id = false := g.has_erase e.id
  have inside := (g.ends_mem e member).1
  rw [redirect, find?_eq_some_iff.mpr ⟨member, rfl⟩]
  dsimp only
  rw [mem_nodes_insert absent, nodes_erase]
  constructor
  · intro given
    rcases given with old | rfl | new
    · exact .inl old
    · exact .inl inside
    · exact .inr new
  · intro given
    rcases given with old | new
    · exact .inl old
    · exact .inr (.inr new)

/-- An edge that is moved either takes its place at the new target or meets a copy there. -/
theorem moveOrMerge_cases (member : e ∈ g.edges) (target : ν) :
    ((∃ f ∈ g.edges, f.id ≠ e.id ∧ ({ e with target } : Edge ν).isCopy f = true) ∧
        (g.moveOrMerge target e).2 = some { e with target } ∧
        ∀ f, f ∈ (g.moveOrMerge target e).1.edges ↔ f ∈ g.edges ∧ f.id ≠ e.id) ∨
      (g.moveOrMerge target e).2 = none ∧
        ∀ f, f ∈ (g.moveOrMerge target e).1.edges ↔
          f = { e with target } ∨ f ∈ g.edges ∧ f.id ≠ e.id := by
  cases copied : (g.redirect e.id target).hasCopy { e with target } with
  | true =>
      refine .inl ⟨?_, by simp [moveOrMerge, copied], fun f => ?_⟩
      · obtain ⟨f, listed, test⟩ := List.any_eq_true.mp copied
        simp only [Bool.and_eq_true, decide_eq_true_eq] at test
        rcases (mem_edges_redirect member).mp listed with rfl | ⟨old, _⟩
        · exact absurd rfl test.1
        · exact ⟨f, old, test.1, test.2⟩
      · simp only [moveOrMerge, copied, if_true, mem_edges_erase, mem_edges_redirect member]
        constructor
        · intro given
          obtain ⟨rfl | old, apart⟩ := given
          · exact absurd rfl apart
          · exact old
        · exact fun old => ⟨.inr old, old.2⟩
  | false =>
      refine .inr ⟨by simp [moveOrMerge, copied], fun f => ?_⟩
      simp only [moveOrMerge, copied, Bool.false_eq_true, if_false, mem_edges_redirect member]

theorem mem_nodes_moveOrMerge (member : e ∈ g.edges) :
    n ∈ (g.moveOrMerge target e).1.nodes ↔ n ∈ g.nodes ∨ n = target := by
  rw [← mem_nodes_redirect member, moveOrMerge]
  split <;> rfl

/-- What moving some edges of a graph to one target comes to. -/
structure Moved (g : Graph ν) (target : ν) (es : List (Edge ν)) (h : Graph ν)
    (merged : List (Edge ν)) : Prop where
  stays : ∀ f ∈ g.edges, f.id ∉ es.map Edge.id → f ∈ h.edges
  arrives : ∀ e ∈ es, { e with target } ∈ h.edges ∨
    { e with target } ∈ merged ∧ ∃ f ∈ h.edges, ({ e with target } : Edge ν).isCopy f = true
  origin : ∀ f ∈ h.edges, f ∈ g.edges ∧ f.id ∉ es.map Edge.id ∨ ∃ e ∈ es, f = { e with target }
  gone : ∀ m ∈ merged, (∃ e ∈ es, m = { e with target }) ∧ ∀ f ∈ h.edges, f.id ≠ m.id
  nodes : ∀ n ∈ h.nodes, n ∈ g.nodes ∨ n = target

theorem Moved.cons_merged {first : Graph ν} (fresh : e.id ∉ es.map Edge.id)
    (listed : ∀ d ∈ es, d ∈ first.edges) (copy : f ∈ g.edges) (apart : f.id ≠ e.id)
    (same : ({ e with target } : Edge ν).isCopy f = true)
    (edgesIff : ∀ d, d ∈ first.edges ↔ d ∈ g.edges ∧ d.id ≠ e.id)
    (nodesIff : ∀ n, n ∈ first.nodes ↔ n ∈ g.nodes ∨ n = target)
    (rest : Moved first target es h merged) :
    Moved g target (e :: es) h ({ e with target } :: merged) := by
  have kept : f ∈ first.edges := (edgesIff f).mpr ⟨copy, apart⟩
  refine ⟨?_, ?_, ?_, ?_, ?_⟩
  · intro d member outside
    rw [List.map_cons, List.mem_cons, not_or] at outside
    exact rest.stays d ((edgesIff d).mpr ⟨member, outside.1⟩) outside.2
  · intro d member
    rcases List.mem_cons.mp member with rfl | later
    · refine .inr ⟨List.mem_cons_self, ?_⟩
      -- The copy may be among the edges still to be moved; it has the new target already.
      by_cases moves : f.id ∈ es.map Edge.id
      · obtain ⟨twin, twinListed, sameId⟩ := List.mem_map.mp moves
        have twinIs : twin = f := first.eq_of_id_eq (listed twin twinListed) kept sameId
        have atTarget : target = f.target := (Edge.isCopy_iff.mp same).2.1
        have unmoved : ({ f with target } : Edge ν) = f := by rw [atTarget]
        have arrived := rest.arrives f (twinIs ▸ twinListed)
        rw [unmoved] at arrived
        rcases arrived with there | ⟨_, other, otherThere, otherCopy⟩
        · exact ⟨f, there, same⟩
        · exact ⟨other, otherThere, Edge.isCopy_trans same otherCopy⟩
      · exact ⟨f, rest.stays f kept moves, same⟩
    · exact (rest.arrives d later).imp id fun ⟨out, other⟩ => ⟨List.mem_cons_of_mem _ out, other⟩
  · intro d member
    rcases rest.origin d member with ⟨old, outside⟩ | ⟨c, later, rfl⟩
    · obtain ⟨listedInG, different⟩ := (edgesIff d).mp old
      refine .inl ⟨listedInG, ?_⟩
      rw [List.map_cons, List.mem_cons, not_or]
      exact ⟨different, outside⟩
    · exact .inr ⟨c, List.mem_cons_of_mem _ later, rfl⟩
  · intro m member
    rcases List.mem_cons.mp member with rfl | later
    · refine ⟨⟨e, List.mem_cons_self, rfl⟩, fun d there => ?_⟩
      rcases rest.origin d there with ⟨old, _⟩ | ⟨c, listedC, rfl⟩
      · exact ((edgesIff d).mp old).2
      · exact fun sameId => fresh (List.mem_map.mpr ⟨c, listedC, sameId⟩)
    · obtain ⟨⟨c, listedC, shape⟩, absent⟩ := rest.gone m later
      exact ⟨⟨c, List.mem_cons_of_mem _ listedC, shape⟩, absent⟩
  · intro n member
    rcases rest.nodes n member with old | new
    · exact (nodesIff n).mp old
    · exact .inr new

theorem Moved.cons_placed {first : Graph ν} (fresh : e.id ∉ es.map Edge.id)
    (edgesIff : ∀ d, d ∈ first.edges ↔ d = { e with target } ∨ d ∈ g.edges ∧ d.id ≠ e.id)
    (nodesIff : ∀ n, n ∈ first.nodes ↔ n ∈ g.nodes ∨ n = target)
    (rest : Moved first target es h merged) : Moved g target (e :: es) h merged := by
  refine ⟨?_, ?_, ?_, ?_, ?_⟩
  · intro d member outside
    rw [List.map_cons, List.mem_cons, not_or] at outside
    exact rest.stays d ((edgesIff d).mpr (.inr ⟨member, outside.1⟩)) outside.2
  · intro d member
    rcases List.mem_cons.mp member with rfl | later
    · exact .inl (rest.stays _ ((edgesIff _).mpr (.inl rfl)) fresh)
    · exact rest.arrives d later
  · intro d member
    rcases rest.origin d member with ⟨old, outside⟩ | ⟨c, later, rfl⟩
    · rcases (edgesIff d).mp old with rfl | ⟨listedInG, different⟩
      · exact .inr ⟨e, List.mem_cons_self, rfl⟩
      · refine .inl ⟨listedInG, ?_⟩
        rw [List.map_cons, List.mem_cons, not_or]
        exact ⟨different, outside⟩
    · exact .inr ⟨c, List.mem_cons_of_mem _ later, rfl⟩
  · intro m member
    obtain ⟨⟨c, listedC, shape⟩, absent⟩ := rest.gone m member
    exact ⟨⟨c, List.mem_cons_of_mem _ listedC, shape⟩, absent⟩
  · intro n member
    rcases rest.nodes n member with old | new
    · exact (nodesIff n).mp old
    · exact .inr new

theorem moveAll_moved (target : ν) (listed : ∀ e ∈ es, e ∈ g.edges)
    (distinct : (es.map Edge.id).Nodup) :
    Moved g target es (g.moveAll target es).1 (g.moveAll target es).2 := by
  induction es generalizing g with
  | nil => exact ⟨fun f member _ => member, by simp, fun f member => .inl ⟨member, by simp⟩,
      by simp [moveAll], fun n member => .inl member⟩
  | cons e es ih =>
      obtain ⟨fresh, others⟩ := List.nodup_cons.mp distinct
      have member := listed e List.mem_cons_self
      have nodesIff (n : ν) : n ∈ (g.moveOrMerge target e).1.nodes ↔ n ∈ g.nodes ∨ n = target :=
        mem_nodes_moveOrMerge member
      have different {d : Edge ν} (later : d ∈ es) : d.id ≠ e.id :=
        fun same => fresh (same ▸ List.mem_map_of_mem (f := Edge.id) later)
      rcases moveOrMerge_cases member target with
        ⟨⟨f, copy, apart, same⟩, reported, edgesIff⟩ | ⟨reported, edgesIff⟩
      · have rest : ∀ d ∈ es, d ∈ (g.moveOrMerge target e).1.edges := fun d later =>
          (edgesIff d).mpr ⟨listed d (List.mem_cons_of_mem _ later), different later⟩
        simp only [moveAll, reported]
        exact .cons_merged fresh rest copy apart same edgesIff nodesIff (ih rest others)
      · have rest : ∀ d ∈ es, d ∈ (g.moveOrMerge target e).1.edges := fun d later =>
          (edgesIff d).mpr (.inr ⟨listed d (List.mem_cons_of_mem _ later), different later⟩)
        simp only [moveAll, reported]
        exact .cons_placed fresh edgesIff nodesIff (ih rest others)

theorem eq_of_sole (member : d ∈ g.edges) (sole : g.outDegree d.source ≤ 1) (other : e ∈ g.edges)
    (leaves : e.source = d.source) : e = d := by
  have first : d ∈ g.outgoing d.source := mem_outgoing.mpr ⟨member, rfl⟩
  have second : e ∈ g.outgoing d.source := mem_outgoing.mpr ⟨other, leaves⟩
  unfold outDegree at sole
  match ways : g.outgoing d.source, sole with
  | [], _ =>
      rw [ways] at first
      cases first
  | [way], _ =>
      rw [ways, List.mem_singleton] at first second
      rw [first, second]
  | _ :: _ :: _, many => simp at many

/-- Nothing leaves the source any more, and nothing leads there unless the edge was a loop. -/
theorem bypass_eq_of_connected (member : d ∈ g.edges) (sole : g.outDegree d.source ≤ 1)
    (origin : ∀ f ∈ h.edges, ∃ e ∈ g.edges, e.id ≠ d.id ∧ f = d.past e) (inside : n ∈ h.nodes)
    (connected : ¬ (n = d.source ∧ h.isIsolated d.source = true)) : d.bypass n = n := by
  by_cases source : n = d.source
  · have loop : d.target = d.source := by
      apply Classical.byContradiction
      intro straight
      apply connected
      refine ⟨source, decide_eq_true ⟨source ▸ inside, fun f there => ?_⟩⟩
      obtain ⟨e, old, apart, rfl⟩ := origin f there
      constructor
      · intro leaves
        exact apart (congrArg Edge.id (eq_of_sole member sole old leaves))
      · intro enters
        simp only [Edge.past, Edge.bypass] at enters
        split at enters
        · exact straight enters
        · contradiction
    simp [Edge.bypass, source, loop]
  · simp [Edge.bypass, source]

structure Contracted (g : Graph ν) (d : Edge ν) (h : Graph ν) (merged : List (Edge ν)) : Prop where
  arrives : ∀ e ∈ g.edges, e.id ≠ d.id → d.past e ∈ h.edges ∨
    d.past e ∈ merged ∧ ∃ f ∈ h.edges, (d.past e).isCopy f = true
  origin : ∀ f ∈ h.edges, ∃ e ∈ g.edges, e.id ≠ d.id ∧ f = d.past e
  gone : ∀ m ∈ merged, (∃ e ∈ g.edges, e.id ≠ d.id ∧ m = d.past e) ∧ ∀ f ∈ h.edges, f.id ≠ m.id
  nodes : ∀ n ∈ h.nodes, n ∈ g.nodes ∧ d.bypass n = n

end Graph

namespace LiveGraph

variable {s : LiveGraph ν} {d : Edge ν} {m n : ν}

@[simp] theorem edges_forget (s : LiveGraph ν) (n : ν) :
    (s.forget n).graph.edges = s.graph.edges := by
  unfold forget
  split <;> simp

theorem mem_nodes_forget :
    m ∈ (s.forget n).graph.nodes ↔
      m ∈ s.graph.nodes ∧ ¬ (m = n ∧ s.graph.isIsolated n = true) := by
  unfold forget
  split
  case isTrue isolated => simp [Graph.discard, isolated]
  case isFalse connected => simp [connected]

theorem contract_contracted (member : d ∈ s.graph.edges)
    (sole : s.graph.outDegree d.source ≤ 1) :
    Graph.Contracted s.graph d (s.contract d).1.graph (s.contract d).2 := by
  let without := s.graph.erase d.id
  let into := without.incoming d.source
  have listed : ∀ e ∈ into, e ∈ without.edges := fun e found => (Graph.mem_incoming.mp found).1
  have distinct : (into.map Edge.id).Nodup :=
    (List.filter_sublist.map Edge.id).nodup without.ids_nodup
  have moved := Graph.moveAll_moved d.target listed distinct
  let h := (without.moveAll d.target into).1
  have edgesEq : (s.contract d).1.graph.edges = h.edges := by
    simp only [contract, edges_forget]
    rfl
  have mergedEq : (s.contract d).2 = (without.moveAll d.target into).2 := rfl
  have atSource {e : Edge ν} (found : e ∈ into) :
      e ∈ s.graph.edges ∧ e.id ≠ d.id ∧ ({ e with target := d.target } : Edge ν) = d.past e := by
    obtain ⟨inside, target⟩ := Graph.mem_incoming.mp found
    obtain ⟨old, apart⟩ := Graph.mem_edges_erase.mp inside
    exact ⟨old, apart, by simp [Edge.past, Edge.bypass, target]⟩
  have elsewhere {e : Edge ν} (inside : e ∈ without.edges) (outside : e.id ∉ into.map Edge.id) :
      d.past e = e := by
    have apart : e.target ≠ d.source := fun target =>
      outside (List.mem_map_of_mem (Graph.mem_incoming.mpr ⟨inside, target⟩))
    simp [Edge.past, Edge.bypass, apart]
  have origin : ∀ f ∈ h.edges, ∃ e ∈ s.graph.edges, e.id ≠ d.id ∧ f = d.past e := by
    intro f there
    rcases moved.origin f there with ⟨inside, outside⟩ | ⟨e, found, rfl⟩
    · obtain ⟨old, apart⟩ := Graph.mem_edges_erase.mp inside
      exact ⟨f, old, apart, (elsewhere inside outside).symm⟩
    · obtain ⟨old, apart, past⟩ := atSource found
      exact ⟨e, old, apart, past⟩
  refine ⟨?_, edgesEq ▸ origin, ?_, ?_⟩
  · intro e old apart
    rw [edgesEq, mergedEq]
    have inside : e ∈ without.edges := Graph.mem_edges_erase.mpr ⟨old, apart⟩
    by_cases moves : e ∈ into
    · rw [← (atSource moves).2.2]
      exact moved.arrives e moves
    · have outside : e.id ∉ into.map Edge.id := by
        intro found
        obtain ⟨twin, twinFound, same⟩ := List.mem_map.mp found
        exact moves (without.eq_of_id_eq (listed twin twinFound) inside same ▸ twinFound)
      rw [elsewhere inside outside]
      exact .inl (moved.stays e inside outside)
  · intro m out
    rw [edgesEq]
    obtain ⟨⟨e, found, rfl⟩, absent⟩ := moved.gone m (mergedEq ▸ out)
    obtain ⟨old, apart, past⟩ := atSource found
    exact ⟨⟨e, old, apart, past⟩, absent⟩
  · intro n there
    have remains : n ∈ h.nodes ∧ ¬ (n = d.source ∧ h.isIsolated d.source = true) := by
      have both := (mem_nodes_forget.mp there).1
      exact mem_nodes_forget.mp both
    have known : n ∈ s.graph.nodes := by
      rcases moved.nodes n remains.1 with old | rfl
      · exact old
      · exact (s.graph.ends_mem d member).2
    exact ⟨known, Graph.bypass_eq_of_connected member sole origin remains.1 remains.2⟩

end LiveGraph

end Deadwood
