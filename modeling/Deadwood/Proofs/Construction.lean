import Deadwood.Graph
import Deadwood.Proofs.Path

namespace Deadwood

/-!
The graph of a list of edges has exactly these edges and their ends, and a listing of the edges
leaves out nothing but copies.
-/

variable {ν : Type} {edges : List (Edge ν)} {e f : Edge ν} {n : ν}

namespace Edge

/-- An id names one edge. -/
def Identified (edges : List (Edge ν)) : Prop := ∀ e ∈ edges, ∀ f ∈ edges, e.id = f.id → e = f

variable [DecidableEq ν]

instance : DecidablePred (@Identified ν) := fun edges =>
  inferInstanceAs (Decidable (∀ e ∈ edges, ∀ f ∈ edges, e.id = f.id → e = f))

theorem isCopy_refl (e : Edge ν) : e.isCopy e = true := isCopy_iff.mpr ⟨rfl, rfl, rfl⟩

theorem haveCopies_of_subset {others : List (Edge ν)} (within : ∀ e ∈ edges, e ∈ others) :
    HaveCopies edges others :=
  fun e member => ⟨e, within e member, e.isCopy_refl⟩

theorem isCopy_trans {g : Edge ν} (first : e.isCopy f = true) (second : f.isCopy g = true) :
    e.isCopy g = true := by
  rw [isCopy_iff] at first second ⊢
  exact ⟨first.1.trans second.1, first.2.1.trans second.2.1, first.2.2.trans second.2.2⟩

theorem isCopy_symm (copy : e.isCopy f = true) : f.isCopy e = true := by
  rw [isCopy_iff] at copy ⊢
  exact ⟨copy.1.symm, copy.2.1.symm, copy.2.2.symm⟩

theorem mem_of_mem_withoutCopies (member : e ∈ withoutCopies edges) : e ∈ edges := by
  induction edges with
  | nil => cases member
  | cons first rest ih =>
      rcases List.mem_cons.mp member with same | later
      · exact same ▸ List.mem_cons_self
      · exact List.mem_cons_of_mem _ (ih (List.mem_filter.mp later).1)

theorem withoutCopies_haveCopies (edges : List (Edge ν)) :
    HaveCopies edges (withoutCopies edges) := by
  induction edges with
  | nil => intro e member; cases member
  | cons first rest ih =>
      intro e member
      rcases List.mem_cons.mp member with same | later
      · exact ⟨first, List.mem_cons_self, same ▸ e.isCopy_refl⟩
      · obtain ⟨f, kept, copy⟩ := ih e later
        by_cases dropped : first.isCopy f = true
        · exact ⟨first, List.mem_cons_self, isCopy_trans copy (isCopy_symm dropped)⟩
        · exact ⟨f, List.mem_cons_of_mem _ (List.mem_filter.mpr ⟨kept, by simpa using dropped⟩),
            copy⟩

variable [Node ν]

theorem mem_of_mem_arrange (member : e ∈ arrange edges) : e ∈ edges :=
  mem_of_mem_withoutCopies (mem_sort.mp member)

theorem haveCopies_arrange (edges : List (Edge ν)) : HaveCopies edges (arrange edges) := by
  intro e member
  obtain ⟨f, kept, copy⟩ := withoutCopies_haveCopies edges e member
  exact ⟨f, mem_sort.mpr kept, copy⟩

theorem arrange_haveCopies (edges : List (Edge ν)) : HaveCopies (arrange edges) edges :=
  haveCopies_of_subset fun _ => mem_of_mem_arrange

theorem Identified.arrange (identified : Identified edges) : Identified (arrange edges) :=
  fun e left f right => identified e (mem_of_mem_arrange left) f (mem_of_mem_arrange right)

end Edge

namespace Graph

variable {g : Graph ν}

theorem has_of_mem (member : e ∈ g.edges) : g.has e.id = true := by
  rw [has, find?_eq_some_iff.mpr ⟨member, rfl⟩]
  rfl

theorem has_eq_false {id : Nat} (absent : ∀ f ∈ g.edges, f.id ≠ id) : g.has id = false := by
  have none : g.find? id = none := by
    rw [find?_eq_none_iff, List.mem_map]
    intro given
    obtain ⟨f, member, same⟩ := given
    exact absent f member same
  rw [has, none]
  rfl

theorem has_erase (g : Graph ν) (id : Nat) : (g.erase id).has id = false :=
  has_eq_false fun _ listed => (mem_edges_erase.mp listed).2

variable [DecidableEq ν]

theorem insert_of_mem (member : e ∈ g.edges) : g.insert e = g := by
  rw [insert, dif_pos (has_of_mem member)]

theorem mem_nodes_insert (absent : g.has e.id = false) :
    n ∈ (g.insert e).nodes ↔ n ∈ g.nodes ∨ n = e.source ∨ n = e.target := by
  simp [insert, absent, or_assoc]

theorem insert_spec (identified : ∀ f ∈ g.edges, f.id = e.id → f = e) :
    (∀ f, f ∈ (g.insert e).edges ↔ f = e ∨ f ∈ g.edges) ∧
      ∀ n, n ∈ (g.insert e).nodes ↔ n ∈ g.nodes ∨ n = e.source ∨ n = e.target := by
  by_cases member : e ∈ g.edges
  · rw [insert_of_mem member]
    have ends := g.ends_mem e member
    grind
  · have absent : g.has e.id = false :=
      has_eq_false fun f listed same => member (identified f listed same ▸ listed)
    exact ⟨fun f => mem_edges_insert absent, fun n => mem_nodes_insert absent⟩

theorem foldl_insert_spec (identified : Edge.Identified (g.edges ++ edges)) :
    (∀ f, f ∈ (edges.foldl insert g).edges ↔ f ∈ g.edges ∨ f ∈ edges) ∧
      ∀ n, n ∈ (edges.foldl insert g).nodes ↔
        n ∈ g.nodes ∨ ∃ e ∈ edges, n = e.source ∨ n = e.target := by
  induction edges generalizing g with
  | nil => simp
  | cons e es ih =>
      obtain ⟨inserted, ends⟩ := insert_spec (g := g) (e := e) fun f member same =>
        identified f (List.mem_append_left _ member) e (by simp) same
      have rest : Edge.Identified ((g.insert e).edges ++ es) := by
        refine fun d left f right => identified d ?_ f ?_ <;>
          simp only [List.mem_append, List.mem_cons, inserted] at left right ⊢ <;> grind
      obtain ⟨edgesIff, nodesIff⟩ := ih rest
      simp only [List.foldl_cons, edgesIff, nodesIff, inserted, ends, List.mem_cons]
      grind

theorem mem_edges_ofEdges (identified : Edge.Identified edges) :
    e ∈ (ofEdges edges).edges ↔ e ∈ edges := by
  rw [ofEdges, (foldl_insert_spec (g := empty) identified).1]
  simp [empty]

theorem mem_nodes_ofEdges (identified : Edge.Identified edges) :
    n ∈ (ofEdges edges).nodes ↔ ∃ e ∈ edges, n = e.source ∨ n = e.target := by
  rw [ofEdges, (foldl_insert_spec (g := empty) identified).2]
  simp [empty]

theorem isExit_iff_outgoing : IsExit g.edges n ↔ g.outgoing n = [] := by
  simp [IsExit, outgoing, List.filter_eq_nil_iff]

end Graph

end Deadwood
