import Mathlib.Data.List.Forall2
import Deadwood.Proofs.Bookkeeping

namespace Deadwood

/-!
Edges seen without their ids. Two lists of edges can have the same sources, targets and statements,
each in its own order and under ids of its own. Main statements: their listings show the same keys in
the same order, and contractions around edges that look the same leave edges that look the same.
-/

variable {ν : Type} {edges others es fs : List (Edge ν)} {c d e f : Edge ν}

namespace Edge

/-- What an edge is apart from its id. -/
def parts (e : Edge ν) : ν × ν × Statement := (e.source, e.target, e.statement)

/-- What a listing goes by. -/
def key (e : Edge ν) : ν × ν × String := (e.source, e.target, e.statement.text)

theorem parts_eq_iff :
    e.parts = f.parts ↔ e.source = f.source ∧ e.target = f.target ∧ e.statement = f.statement := by
  simp [parts]

theorem isCopy_iff_parts [DecidableEq ν] : e.isCopy f = true ↔ e.parts = f.parts := by
  rw [isCopy_iff, parts_eq_iff]

theorem Distinct.eq_of_parts [DecidableEq ν] (distinct : Distinct edges) (left : e ∈ edges)
    (right : f ∈ edges) (same : e.parts = f.parts) : e = f :=
  distinct e left f right (isCopy_iff_parts.mpr same)

section Listing

variable [Node ν]

/-- The order of a listing, as an order of keys. -/
def keyOrder : ν × ν × String → ν × ν × String → Ordering :=
  compareLex (compareOn Prod.fst) (compareLex (compareOn (·.2.1)) (compareOn (·.2.2)))

instance : Std.TransCmp (@keyOrder ν _) :=
  inferInstanceAs (Std.TransCmp (compareLex (compareOn Prod.fst)
    (compareLex (compareOn fun k : ν × ν × String => k.2.1) (compareOn (·.2.2)))))

instance : Std.LawfulEqCmp (@keyOrder ν _) where
  eq_of_compare {k l} same := by
    simp only [keyOrder, compareLex, compareOn, Ordering.then_eq_eq,
      Std.LawfulEqOrd.compare_eq_iff_eq] at same
    grind

theorem compareKey_eq (e f : Edge ν) : compareKey e f = keyOrder e.key f.key := rfl

/-- A listing shows the keys in one order, whatever order the edges came in. -/
theorem map_key_eq (left : es.Pairwise fun e f => e.keyLe f = true)
    (right : fs.Pairwise fun e f => e.keyLe f = true)
    (same : (es.map parts).Perm (fs.map parts)) : es.map key = fs.map key := by
  have keys : (es.map key).Perm (fs.map key) := by
    have shown := same.map fun t : ν × ν × Statement => (t.1, t.2.1, t.2.2.text)
    rw [List.map_map, List.map_map] at shown
    exact shown
  have ordered {es : List (Edge ν)} (sorted : es.Pairwise fun e f => e.keyLe f = true) :
      (es.map key).Pairwise fun k l => (keyOrder k l).isLE = true := by
    simp only [keyLe, compareKey_eq] at sorted
    exact List.pairwise_map.mpr sorted
  refine keys.eq_of_pairwise (fun k l _ _ first second => ?_) (ordered left) (ordered right)
  exact Std.LawfulEqCmp.eq_of_compare (Std.OrientedCmp.isLE_antisymm first second)

end Listing

/-- The lists have the same edges, as far as ids do not matter, each of them however often. -/
def SameParts (edges others : List (Edge ν)) : Prop :=
  ∀ t, t ∈ edges.map parts ↔ t ∈ others.map parts

namespace SameParts

theorem symm (same : SameParts edges others) : SameParts others edges := fun t => (same t).symm

theorem trans {further : List (Edge ν)} (first : SameParts edges others)
    (second : SameParts others further) : SameParts edges further :=
  fun t => (first t).trans (second t)

theorem exists_like (same : SameParts edges others) (member : e ∈ edges) :
    ∃ f ∈ others, e.parts = f.parts := by
  obtain ⟨f, listed, like⟩ := List.mem_map.mp ((same _).mp (List.mem_map_of_mem member))
  exact ⟨f, listed, like.symm⟩

theorem of_exists_like (there : ∀ e ∈ edges, ∃ f ∈ others, e.parts = f.parts)
    (back : ∀ f ∈ others, ∃ e ∈ edges, f.parts = e.parts) : SameParts edges others := by
  intro t
  constructor
  · intro shown
    obtain ⟨e, member, rfl⟩ := List.mem_map.mp shown
    obtain ⟨f, listed, like⟩ := there e member
    exact like ▸ List.mem_map_of_mem listed
  · intro shown
    obtain ⟨f, listed, rfl⟩ := List.mem_map.mp shown
    obtain ⟨e, member, like⟩ := back f listed
    exact like ▸ List.mem_map_of_mem member

variable [DecidableEq ν]

theorem haveCopies (same : SameParts edges others) : HaveCopies edges others := by
  intro e member
  obtain ⟨f, listed, like⟩ := same.exists_like member
  exact ⟨f, listed, isCopy_iff_parts.mpr like⟩

theorem of_haveCopies (there : HaveCopies edges others) (back : HaveCopies others edges) :
    SameParts edges others := by
  refine of_exists_like (fun e member => ?_) fun f listed => ?_
  · obtain ⟨f, listed, copy⟩ := there e member
    exact ⟨f, listed, isCopy_iff_parts.mp copy⟩
  · obtain ⟨e, member, copy⟩ := back f listed
    exact ⟨e, member, isCopy_iff_parts.mp copy⟩

theorem perm (same : SameParts edges others) (nodup : edges.Nodup) (nodupOthers : others.Nodup)
    (distinct : Distinct edges) (distinctOthers : Distinct others) :
    (edges.map parts).Perm (others.map parts) := by
  refine (List.perm_ext_iff_of_nodup ?_ ?_).mpr same
  · exact nodup.map_on fun e left f right => distinct.eq_of_parts left right
  · exact nodupOthers.map_on fun e left f right => distinctOthers.eq_of_parts left right

end SameParts

/-- An edge is still there once the graph has been contracted around `d`: it is another edge, and if it
is sent on, no edge with another target looks like it then. -/
def Survives [DecidableEq ν] (edges : List (Edge ν)) (d e : Edge ν) : Prop :=
  e.parts ≠ d.parts ∧
    (e.target = d.source → ∀ f ∈ edges, f.parts = (d.past e).parts → f.target = d.source)

variable [DecidableEq ν]

theorem parts_past (sameD : d.parts = c.parts) (same : e.parts = f.parts) :
    (d.past e).parts = (c.past f).parts := by
  obtain ⟨source, target, _⟩ := parts_eq_iff.mp sameD
  obtain ⟨sourceE, targetE, statementE⟩ := parts_eq_iff.mp same
  simp only [parts, past, bypass, source, target, sourceE, targetE, statementE]

theorem Survives.congr (same : SameParts edges others) (likeD : d.parts = c.parts)
    (like : e.parts = f.parts) (survives : Survives edges d e) : Survives others c f := by
  obtain ⟨other, apart⟩ := survives
  have source : d.source = c.source := (parts_eq_iff.mp likeD).1
  have target : e.target = f.target := (parts_eq_iff.mp like).2.1
  refine ⟨likeD ▸ like ▸ other, fun sent g listed meets => ?_⟩
  obtain ⟨h, member, likeG⟩ := same.symm.exists_like listed
  rw [(parts_eq_iff.mp likeG).2.1, ← source]
  refine apart (target.trans (sent.trans source.symm)) h member ?_
  exact likeG.symm.trans (meets.trans (parts_past likeD like).symm)

end Edge

namespace LiveGraph

variable [DecidableEq ν] {s : LiveGraph ν}

theorem mem_contract_of_target_ne (listed : e ∈ s.graph.edges) (other : e.id ≠ d.id)
    (elsewhere : e.target ≠ d.source) : e ∈ (s.contract d).1.graph.edges := by
  have moved := Graph.moveAll_moved d.target
    (Graph.mem_edges_of_incoming (g := s.graph.erase d.id) (n := d.source))
    (Graph.incoming_ids_nodup _ _)
  simp only [contract, edges_forget]
  refine moved.stays e (Graph.mem_edges_erase.mpr ⟨listed, other⟩) fun sent => ?_
  obtain ⟨f, found, same⟩ := List.mem_map.mp sent
  obtain ⟨inside, enters⟩ := Graph.mem_incoming.mp found
  have itself : f = e := s.graph.eq_of_id_eq (Graph.mem_edges_erase.mp inside).1 listed same
  exact elsewhere (itself ▸ enters)

/-- Edges that are sent on have different sources or statements, so what merges one of them is an edge
that was there before. -/
theorem past_mem_contract_iff (member : d ∈ s.graph.edges) (sole : s.graph.outDegree d.source ≤ 1)
    (distinct : Edge.Distinct s.graph.edges) (listed : e ∈ s.graph.edges) :
    d.past e ∈ (s.contract d).1.graph.edges ↔ Edge.Survives s.graph.edges d e := by
  have contracted := contract_contracted member sole
  constructor
  · intro arrives
    obtain ⟨c, old, other, same⟩ := contracted.origin _ arrives
    have itself : c = e := s.graph.eq_of_id_eq old listed (congrArg Edge.id same).symm
    rw [itself] at other
    refine ⟨fun like => other ?_, fun sent f inside meets => ?_⟩
    · rw [distinct.eq_of_parts listed member like]
    · apply Classical.byContradiction
      intro elsewhere
      have otherF : f.id ≠ d.id := by
        intro sameId
        have leaves : e.source = d.source := by
          rw [← s.graph.eq_of_id_eq inside member sameId]
          exact (Edge.parts_eq_iff.mp meets).1.symm
        exact other (congrArg Edge.id (Graph.eq_of_sole member sole listed leaves))
      have stays := mem_contract_of_target_ne inside otherF elsewhere
      have twin : f = d.past e := (distinct_contract distinct).eq_of_parts stays arrives meets
      have sameId : f.id = e.id := by rw [twin]; rfl
      exact elsewhere (s.graph.eq_of_id_eq inside listed sameId ▸ sent)
  · rintro ⟨unlike, apart⟩
    have other : e.id ≠ d.id := fun same => unlike (by rw [s.graph.eq_of_id_eq listed member same])
    by_cases sent : e.target = d.source
    · rcases contracted.arrives e listed other with arrives | ⟨_, f, there, copy⟩
      · exact arrives
      · obtain ⟨c, old, _, rfl⟩ := contracted.origin f there
        obtain ⟨source, _, statement⟩ := Edge.isCopy_iff.mp copy
        have enters : c.target = d.source := by
          apply Classical.byContradiction
          intro elsewhere
          have unmoved : d.past c = c := by simp [Edge.past, Edge.bypass, elsewhere]
          rw [unmoved] at copy
          exact elsewhere (apart sent c old (Edge.isCopy_iff_parts.mp copy).symm)
        have like : c.parts = e.parts :=
          Edge.parts_eq_iff.mpr ⟨source.symm, enters.trans sent.symm, statement.symm⟩
        rwa [distinct.eq_of_parts old listed like] at there
    · have unmoved : d.past e = e := by simp [Edge.past, Edge.bypass, sent]
      rw [unmoved]
      exact mem_contract_of_target_ne listed other sent

theorem mem_contract_iff (member : d ∈ s.graph.edges) (sole : s.graph.outDegree d.source ≤ 1)
    (distinct : Edge.Distinct s.graph.edges) :
    f ∈ (s.contract d).1.graph.edges ↔
      ∃ e ∈ s.graph.edges, Edge.Survives s.graph.edges d e ∧ f = d.past e := by
  constructor
  · intro there
    obtain ⟨e, listed, _, rfl⟩ := (contract_contracted member sole).origin f there
    exact ⟨e, listed, (past_mem_contract_iff member sole distinct listed).mp there, rfl⟩
  · rintro ⟨e, listed, survives, rfl⟩
    exact (past_mem_contract_iff member sole distinct listed).mpr survives

end LiveGraph

namespace Graph

variable [DecidableEq ν] {g h : Graph ν} {i j : Nat}

/-- The graphs hold edges that look the same, each of them once. -/
structure Like (g h : Graph ν) : Prop where
  same : Edge.SameParts g.edges h.edges
  distinct : Edge.Distinct g.edges
  distinct_right : Edge.Distinct h.edges

/-- The ids belong to edges that look the same, or both to none. -/
def Matches (g h : Graph ν) (i j : Nat) : Prop :=
  (g.find? i).map Edge.parts = (h.find? j).map Edge.parts

/-- All ways out of the source carry the statement of the edge. -/
def isPlain (g : Graph ν) (e : Edge ν) : Bool :=
  (g.outgoing e.source).all fun f => f.statement = e.statement

theorem isPlain_iff : g.isPlain e = true ↔
    ∀ f ∈ g.edges, f.source = e.source → f.statement = e.statement := by
  simp [isPlain]

theorem isPlain_eq_false_iff : g.isPlain e = false ↔
    ∃ f ∈ g.edges, f.source = e.source ∧ f.statement ≠ e.statement := by
  simp [isPlain, and_assoc]

namespace Like

theorem symm (like : Like g h) : Like h g := ⟨like.same.symm, like.distinct_right, like.distinct⟩

theorem perm (like : Like g h) : (g.edges.map Edge.parts).Perm (h.edges.map Edge.parts) :=
  like.same.perm g.nodup_edges h.nodup_edges like.distinct like.distinct_right

theorem outDegree_eq (like : Like g h) (n : ν) : g.outDegree n = h.outDegree n := by
  have count (g : Graph ν) :
      g.outDegree n = ((g.edges.map Edge.parts).filter fun t => t.1 = n).length := by
    rw [List.filter_map, List.length_map]
    rfl
  rw [count, count, (like.perm.filter _).length_eq]

theorem size_eq (like : Like g h) : g.size = h.size := by
  simpa [size] using like.perm.length_eq

theorem isPlain_congr (like : Like g h) (same : e.parts = f.parts) (plain : g.isPlain e = true) :
    h.isPlain f = true := by
  obtain ⟨source, _, statement⟩ := Edge.parts_eq_iff.mp same
  refine isPlain_iff.mpr fun d listed leaves => ?_
  obtain ⟨c, member, likeD⟩ := like.symm.same.exists_like listed
  obtain ⟨sourceD, _, statementD⟩ := Edge.parts_eq_iff.mp likeD
  have carried := isPlain_iff.mp plain c member (sourceD.symm.trans (leaves.trans source.symm))
  exact statementD.trans (carried.trans statement)

/-- Edges are plain where only one statement leaves their source, and there the key tells the edge. So
listings of plain edges pair them off. -/
theorem forall₂_matches [Node ν] (like : Like g h)
    (within : ∀ e ∈ es, e ∈ g.edges ∧ g.isPlain e = true) (inside : ∀ f ∈ fs, f ∈ h.edges)
    (sorted : es.Pairwise fun e f => e.keyLe f = true)
    (sortedRight : fs.Pairwise fun e f => e.keyLe f = true)
    (same : (es.map Edge.parts).Perm (fs.map Edge.parts)) :
    es.Forall₂ (fun e f => g.Matches h e.id f.id) fs := by
  have keys : es.Forall₂ (fun e f => e.key = f.key) fs := by
    have shown := Edge.map_key_eq sorted sortedRight same
    rwa [← List.forall₂_eq_eq_eq, List.forall₂_map_left_iff, List.forall₂_map_right_iff] at shown
  obtain ⟨lengths, paired⟩ := List.forall₂_iff_zip.mp keys
  refine List.forall₂_iff_zip.mpr ⟨lengths, fun {e f} pair => ?_⟩
  obtain ⟨memberE, memberF⟩ := List.of_mem_zip pair
  obtain ⟨listed, plain⟩ := within e memberE
  have listedF := inside f memberF
  obtain ⟨source, target, _⟩ : e.source = f.source ∧ e.target = f.target ∧ _ := by
    simpa [Edge.key] using paired pair
  obtain ⟨c, member, likeF⟩ := like.symm.same.exists_like listedF
  obtain ⟨sourceF, _, statementF⟩ := Edge.parts_eq_iff.mp likeF
  have carried := isPlain_iff.mp plain c member (sourceF.symm.trans source.symm)
  rw [Matches, find?_eq_some_iff.mpr ⟨listed, rfl⟩, find?_eq_some_iff.mpr ⟨listedF, rfl⟩]
  exact congrArg some (Edge.parts_eq_iff.mpr ⟨source, target, (statementF.trans carried).symm⟩)

variable {s t : LiveGraph ν} (like : Like s.graph t.graph) (member : d ∈ s.graph.edges)
  (sole : s.graph.outDegree d.source ≤ 1) (memberC : c ∈ t.graph.edges) (likeC : d.parts = c.parts)

include sole likeC like in
theorem sole_right : t.graph.outDegree c.source ≤ 1 := by
  rw [← like.outDegree_eq, ← (Edge.parts_eq_iff.mp likeC).1]
  exact sole

include like member sole memberC likeC

/-- Whatever is left on one side has its like on the other. -/
theorem exists_like_contract (there : f ∈ (s.contract d).1.graph.edges) :
    ∃ g ∈ (t.contract c).1.graph.edges, f.parts = g.parts := by
  obtain ⟨e, listed, survives, rfl⟩ := (LiveGraph.mem_contract_iff member sole like.distinct).mp there
  obtain ⟨g, inside, likeE⟩ := like.same.exists_like listed
  refine ⟨c.past g, ?_, Edge.parts_past likeC likeE⟩
  exact (LiveGraph.mem_contract_iff memberC (like.sole_right sole likeC) like.distinct_right).mpr
    ⟨g, inside, survives.congr like.same likeC likeE, rfl⟩

theorem contract : Like (s.contract d).1.graph (t.contract c).1.graph where
  same := .of_exists_like (fun _ => like.exists_like_contract member sole memberC likeC) fun _ =>
    like.symm.exists_like_contract memberC (like.sole_right sole likeC) member likeC.symm
  distinct := LiveGraph.distinct_contract like.distinct
  distinct_right := LiveGraph.distinct_contract like.distinct_right

theorem find?_contract {parts : ν × ν × Statement} (matching : Matches s.graph t.graph i j)
    (found : ((s.contract d).1.graph.find? i).map Edge.parts = some parts) :
    ((t.contract c).1.graph.find? j).map Edge.parts = some parts := by
  obtain ⟨f, there, rfl⟩ := Option.map_eq_some_iff.mp found
  obtain ⟨inside, rfl⟩ := find?_eq_some_iff.mp there
  obtain ⟨e, listed, survives, rfl⟩ := (LiveGraph.mem_contract_iff member sole like.distinct).mp inside
  have first : s.graph.find? e.id = some e := find?_eq_some_iff.mpr ⟨listed, rfl⟩
  obtain ⟨g, second, likeE⟩ := Option.map_eq_some_iff.mp
    (matching.symm.trans (congrArg (Option.map Edge.parts) first))
  obtain ⟨listedG, rfl⟩ := find?_eq_some_iff.mp second
  have kept : c.past g ∈ (t.contract c).1.graph.edges :=
    (LiveGraph.mem_contract_iff memberC (like.sole_right sole likeC) like.distinct_right).mpr
      ⟨g, listedG, survives.congr like.same likeC likeE.symm, rfl⟩
  have foundG : (t.contract c).1.graph.find? g.id = some (c.past g) :=
    find?_eq_some_iff.mpr ⟨kept, rfl⟩
  rw [foundG]
  exact congrArg some (Edge.parts_past likeC likeE.symm).symm

/-- Contractions around edges that look the same keep ids matched. -/
theorem matches_contract (matching : Matches s.graph t.graph i j) :
    Matches (s.contract d).1.graph (t.contract c).1.graph i j := by
  refine Option.ext fun parts => ⟨?_, ?_⟩
  · exact like.find?_contract member sole memberC likeC matching
  · exact like.symm.find?_contract memberC (like.sole_right sole likeC) member likeC.symm matching.symm

end Like

end Graph

end Deadwood
