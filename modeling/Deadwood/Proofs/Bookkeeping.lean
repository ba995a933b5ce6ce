import Deadwood.Proofs.Arrangement
import Deadwood.Proofs.Contraction

namespace Deadwood

/-!
The books of a contraction. Every edge that is gone was taken out or merged, no copies arise, a node
stays only where an edge starts or ends, and the nodes that stay keep their live sets.
-/

variable {ν : Type} [DecidableEq ν]

namespace Graph

variable {g : Graph ν} {target n : ν} {e f : Edge ν} {es : List (Edge ν)}

/-- At every node some edge starts or ends. -/
def Joined (g : Graph ν) : Prop := ∀ n ∈ g.nodes, ∃ e ∈ g.edges, e.source = n ∨ e.target = n

theorem joined_ofEdges {edges : List (Edge ν)} (identified : Edge.Identified edges) :
    (ofEdges edges).Joined := by
  intro n inside
  obtain ⟨e, member, ends⟩ := (mem_nodes_ofEdges identified).mp inside
  exact ⟨e, (mem_edges_ofEdges identified).mpr member, ends.imp Eq.symm Eq.symm⟩

omit [DecidableEq ν] in
theorem edges_perm_erase (member : e ∈ g.edges) : g.edges.Perm (e :: (g.erase e.id).edges) := by
  have fresh : e ∉ (g.erase e.id).edges := fun kept => (mem_edges_erase.mp kept).2 rfl
  apply (List.perm_ext_iff_of_nodup g.nodup_edges
    (List.nodup_cons.mpr ⟨fresh, nodup_edges _⟩)).mpr
  intro f
  rw [List.mem_cons, mem_edges_erase]
  constructor
  · intro listed
    by_cases same : f.id = e.id
    · exact .inl (g.eq_of_id_eq listed member same)
    · exact .inr ⟨listed, same⟩
  · intro given
    rcases given with rfl | ⟨listed, _⟩
    · exact member
    · exact listed

omit [DecidableEq ν] in
theorem size_erase (member : e ∈ g.edges) : (g.erase e.id).size + 1 = g.size :=
  (edges_perm_erase member).length_eq.symm

theorem size_redirect (member : e ∈ g.edges) (target : ν) :
    (g.redirect e.id target).size = g.size := by
  have absent : (g.erase e.id).has ({ e with target } : Edge ν).id = false := g.has_erase e.id
  have placed : ((g.erase e.id).insert { e with target }).size = (g.erase e.id).size + 1 := by
    simp [insert, absent, size, (place_perm _ _).length_eq]
  rw [redirect, find?_eq_some_iff.mpr ⟨member, rfl⟩]
  exact placed.trans (size_erase member)

theorem size_moveOrMerge (member : e ∈ g.edges) (target : ν) :
    (g.moveOrMerge target e).1.size + (g.moveOrMerge target e).2.toList.length = g.size := by
  have moved : ({ e with target } : Edge ν) ∈ (g.redirect e.id target).edges :=
    (mem_edges_redirect member).mpr (.inl rfl)
  have erased : ((g.redirect e.id target).erase e.id).size + 1 = (g.redirect e.id target).size :=
    size_erase (e := { e with target }) moved
  have redirected := size_redirect member target
  unfold moveOrMerge
  dsimp only
  split
  · exact erased.trans redirected
  · exact redirected

/-- An edge that is moved to a place where it is no copy is no copy of anything afterwards. -/
theorem distinct_moveOrMerge (member : e ∈ g.edges) (distinct : Edge.Distinct g.edges) :
    Edge.Distinct (g.moveOrMerge target e).1.edges := by
  cases copied : (g.redirect e.id target).hasCopy { e with target } with
  | true =>
      have old {f : Edge ν} (listed : f ∈ (g.moveOrMerge target e).1.edges) : f ∈ g.edges := by
        simp only [moveOrMerge, copied, if_true, mem_edges_erase, mem_edges_redirect member] at listed
        obtain ⟨rfl | kept, apart⟩ := listed
        · exact absurd rfl apart
        · exact kept.1
      exact fun c left d right => distinct c (old left) d (old right)
  | false =>
      have alone {f : Edge ν} (kept : f ∈ g.edges ∧ f.id ≠ e.id) :
          ¬ ({ e with target } : Edge ν).isCopy f = true := by
        intro copy
        have found : (g.redirect e.id target).hasCopy { e with target } = true :=
          List.any_eq_true.mpr ⟨f, (mem_edges_redirect member).mpr (.inr kept), by
            simp [kept.2, copy]⟩
        rw [copied] at found
        cases found
      intro c left d right copy
      simp only [moveOrMerge, copied, Bool.false_eq_true, if_false,
        mem_edges_redirect member] at left right
      rcases left with rfl | keptLeft <;> rcases right with rfl | keptRight
      · rfl
      · exact absurd copy (alone keptRight)
      · exact absurd (Edge.isCopy_symm copy) (alone keptLeft)
      · exact distinct c keptLeft.1 d keptRight.1 copy

theorem mem_moveOrMerge_of_ne (member : e ∈ g.edges) (listed : f ∈ g.edges) (apart : f.id ≠ e.id) :
    f ∈ (g.moveOrMerge target e).1.edges := by
  rcases moveOrMerge_cases member target with ⟨_, _, edgesIff⟩ | ⟨_, edgesIff⟩
  · exact (edgesIff f).mpr ⟨listed, apart⟩
  · exact (edgesIff f).mpr (.inr ⟨listed, apart⟩)

/-- Edges that are still to be moved stay in the graph until their turn comes. -/
theorem listed_moveOrMerge (listed : ∀ f ∈ e :: es, f ∈ g.edges)
    (distinct : ((e :: es).map Edge.id).Nodup) (target : ν) :
    ∀ f ∈ es, f ∈ (g.moveOrMerge target e).1.edges := by
  intro f later
  have fresh := (List.nodup_cons.mp distinct).1
  refine mem_moveOrMerge_of_ne (listed e List.mem_cons_self)
    (listed f (List.mem_cons_of_mem _ later)) fun same => fresh ?_
  exact same ▸ List.mem_map_of_mem (f := Edge.id) later

theorem size_moveAll (listed : ∀ e ∈ es, e ∈ g.edges) (distinct : (es.map Edge.id).Nodup) :
    (g.moveAll target es).1.size + (g.moveAll target es).2.length = g.size := by
  induction es generalizing g with
  | nil => rfl
  | cons e es ih =>
      have first := size_moveOrMerge (listed e List.mem_cons_self) target
      have rest := ih (listed_moveOrMerge listed distinct target)
        (List.nodup_cons.mp distinct).2
      simp only [moveAll, List.length_append]
      omega

/-- What the move of one edge keeps, the move of several keeps. -/
theorem moveAll_keeps {P : Graph ν → Prop}
    (step : ∀ g e, e ∈ g.edges → P g → P (g.moveOrMerge target e).1)
    (listed : ∀ e ∈ es, e ∈ g.edges) (distinct : (es.map Edge.id).Nodup) (start : P g) :
    P (g.moveAll target es).1 := by
  induction es generalizing g with
  | nil => exact start
  | cons e es ih =>
      exact ih (listed_moveOrMerge listed distinct target) (List.nodup_cons.mp distinct).2
        (step g e (listed e List.mem_cons_self) start)

theorem mem_edges_of_incoming : ∀ e ∈ g.incoming n, e ∈ g.edges :=
  fun _ found => (mem_incoming.mp found).1

theorem incoming_ids_nodup (g : Graph ν) (n : ν) : ((g.incoming n).map Edge.id).Nodup :=
  (List.filter_sublist.map Edge.id).nodup g.ids_nodup

end Graph

namespace LiveGraph

variable {s : LiveGraph ν} {d : Edge ν} {m n : ν}

/-- Exactly the nodes of the graph have a live set. -/
def Keyed (s : LiveGraph ν) : Prop := ∀ n, (s.live.get? n).isSome = true ↔ n ∈ s.graph.nodes

theorem get?_forget (s : LiveGraph ν) (n m : ν) :
    (s.forget n).live.get? m =
      if m = n ∧ s.graph.isIsolated n = true then none else s.live.get? m := by
  unfold forget
  split
  case isTrue isolated => simp [OrderedMap.get?_erase, isolated]
  case isFalse connected => simp [connected]

theorem get?_forget_of_mem (there : m ∈ (s.forget n).graph.nodes) :
    (s.forget n).live.get? m = s.live.get? m := by
  rw [get?_forget, if_neg (mem_nodes_forget.mp there).2]

theorem Keyed.forget (keyed : s.Keyed) (n : ν) : (s.forget n).Keyed := by
  intro m
  rw [get?_forget, mem_nodes_forget, ← keyed m]
  split
  case isTrue gone => simp [gone]
  case isFalse stays => simp [stays]

/-- A contraction takes out the edge and those it merges, and nothing else. -/
theorem size_contract (member : d ∈ s.graph.edges) :
    (s.contract d).1.graph.size + (1 + (s.contract d).2.length) = s.graph.size := by
  have taken := Graph.size_erase member
  have moved : ((s.graph.erase d.id).moveAll d.target
      ((s.graph.erase d.id).incoming d.source)).1.size +
        ((s.graph.erase d.id).moveAll d.target
          ((s.graph.erase d.id).incoming d.source)).2.length = (s.graph.erase d.id).size :=
    Graph.size_moveAll Graph.mem_edges_of_incoming (Graph.incoming_ids_nodup _ _)
  simp only [contract, size_forget]
  omega

theorem distinct_contract (distinct : Edge.Distinct s.graph.edges) :
    Edge.Distinct (s.contract d).1.graph.edges := by
  have without : Edge.Distinct (s.graph.erase d.id).edges := fun e left f right =>
    distinct e (Graph.mem_edges_erase.mp left).1 f (Graph.mem_edges_erase.mp right).1
  simp only [contract, edges_forget]
  exact Graph.moveAll_keeps (P := fun g => Edge.Distinct g.edges)
    (fun _ _ => Graph.distinct_moveOrMerge) Graph.mem_edges_of_incoming
    (Graph.incoming_ids_nodup _ _) without

theorem Keyed.contract (keyed : s.Keyed) (member : d ∈ s.graph.edges) :
    (s.contract d).1.Keyed := by
  have inside := (s.graph.ends_mem d member).2
  have nodes := Graph.moveAll_keeps (P := fun g => ∀ n, n ∈ g.nodes ↔ n ∈ s.graph.nodes)
    (fun g e listed same n => by
      rw [Graph.mem_nodes_moveOrMerge listed, same n]
      exact ⟨fun given => given.elim id (· ▸ inside), .inl⟩)
    (Graph.mem_edges_of_incoming (g := s.graph.erase d.id) (n := d.source))
    (Graph.incoming_ids_nodup _ _) (fun n => Iff.rfl)
  have moved : Keyed { s with graph := ((s.graph.erase d.id).moveAll d.target
      ((s.graph.erase d.id).incoming d.source)).1 } :=
    fun n => (keyed n).trans (nodes n).symm
  exact (moved.forget d.source).forget d.target

theorem get?_contract_of_mem (there : n ∈ (s.contract d).1.graph.nodes) :
    (s.contract d).1.live.get? n = s.live.get? n := by
  have between := (mem_nodes_forget.mp there).1
  exact (get?_forget_of_mem there).trans (get?_forget_of_mem between)

/-- The source and the target are forgotten if nothing is left there, and at any other node the edges
that started or ended there still do, or copies of them. -/
theorem joined_contract (member : d ∈ s.graph.edges) (sole : s.graph.outDegree d.source ≤ 1)
    (joined : s.graph.Joined) : (s.contract d).1.graph.Joined := by
  have contracted := contract_contracted member sole
  intro n there
  by_cases near : n = d.source ∨ n = d.target
  · apply Classical.byContradiction
    intro apart
    have alone : ∀ e ∈ (s.contract d).1.graph.edges, e.source ≠ n ∧ e.target ≠ n := by
      intro e listed
      exact not_or.mp fun ends => apart ⟨e, listed, ends⟩
    have kept := mem_nodes_forget.mp there
    have keptFirst := mem_nodes_forget.mp kept.1
    simp only [contract, edges_forget] at alone
    rcases near with rfl | rfl
    · exact keptFirst.2 ⟨rfl, decide_eq_true ⟨keptFirst.1, alone⟩⟩
    · refine kept.2 ⟨rfl, decide_eq_true ⟨kept.1, ?_⟩⟩
      simpa only [edges_forget] using alone
  · obtain ⟨old, _⟩ := contracted.nodes n there
    obtain ⟨e, listed, ends⟩ := joined n old
    have other : e.id ≠ d.id := by
      intro same
      rw [s.graph.eq_of_id_eq listed member same] at ends
      exact near (ends.imp Eq.symm Eq.symm)
    have pastEnds : (d.past e).source = n ∨ (d.past e).target = n := by
      refine ends.imp_right fun target => ?_
      have apart : e.target ≠ d.source := fun source => near (.inl (target.symm.trans source))
      exact (if_neg apart).trans target
    rcases contracted.arrives e listed other with arrives | ⟨_, f, arrives, copy⟩
    · exact ⟨_, arrives, pastEnds⟩
    · obtain ⟨source, target, _⟩ := Edge.isCopy_iff.mp copy
      exact ⟨f, arrives, source ▸ target ▸ pastEnds⟩

end LiveGraph

end Deadwood
