import Deadwood.Edge

namespace Deadwood

/-!
Control flow graphs: nodes, and edges between them. Parallel edges stand side by side, so the edges
out of a node come grouped by target and the edges into it by source, and a group keeps its place
for as long as one edge of it is left. Both views are read off one list of edges, so they agree with
each other by construction; what is proved of them is that they show the edges there should be.
-/

structure Graph (ν : Type) where
  nodes : List ν
  edges : List (Edge ν)
  nodes_nodup : nodes.Nodup
  ids_nodup : (edges.map Edge.id).Nodup
  ends_mem : ∀ e ∈ edges, e.source ∈ nodes ∧ e.target ∈ nodes

namespace Graph

variable {ν : Type}

def empty : Graph ν where
  nodes := []
  edges := []
  nodes_nodup := List.nodup_nil
  ids_nodup := List.nodup_nil
  ends_mem := by simp

instance : Inhabited (Graph ν) := ⟨empty⟩

def find? (g : Graph ν) (id : Nat) : Option (Edge ν) := g.edges.find? (·.id = id)

def has (g : Graph ν) (id : Nat) : Bool := (g.find? id).isSome

def size (g : Graph ν) : Nat := g.edges.length

/-- Takes an edge out. The nodes it joined stay. -/
def erase (g : Graph ν) (id : Nat) : Graph ν where
  nodes := g.nodes
  edges := g.edges.filter (·.id ≠ id)
  nodes_nodup := g.nodes_nodup
  ids_nodup := (List.filter_sublist.map Edge.id).nodup g.ids_nodup
  ends_mem e member := g.ends_mem e (List.mem_filter.mp member).1

@[simp] theorem mem_edges_erase {g : Graph ν} {id : Nat} {e : Edge ν} :
    e ∈ (g.erase id).edges ↔ e ∈ g.edges ∧ e.id ≠ id := by
  simp [erase]

@[simp] theorem nodes_erase (g : Graph ν) (id : Nat) : (g.erase id).nodes = g.nodes := rfl

theorem find?_eq_none_iff {g : Graph ν} {id : Nat} :
    g.find? id = none ↔ id ∉ g.edges.map Edge.id := by
  simp [find?, List.find?_eq_none]

theorem eq_of_id_eq {g : Graph ν} {e f : Edge ν} (left : e ∈ g.edges) (right : f ∈ g.edges)
    (same : e.id = f.id) : e = f := by
  have distinct := g.ids_nodup
  revert left right distinct
  generalize g.edges = es
  intro left right distinct
  induction es with
  | nil => cases left
  | cons d es ih =>
      have ⟨first, rest⟩ := List.nodup_cons.mp distinct
      grind

theorem find?_eq_some_iff {g : Graph ν} {id : Nat} {e : Edge ν} :
    g.find? id = some e ↔ e ∈ g.edges ∧ e.id = id := by
  constructor
  · intro found
    exact ⟨List.mem_of_find?_eq_some found, by simpa using List.find?_some found⟩
  · rintro ⟨member, rfl⟩
    cases found : g.find? e.id with
    | none => exact absurd (List.mem_map_of_mem member) (find?_eq_none_iff.mp found)
    | some f =>
        have same : f.id = e.id := by simpa using List.find?_some found
        have listed := List.mem_of_find?_eq_some found
        rw [eq_of_id_eq listed member same]

theorem size_erase_le (g : Graph ν) (id : Nat) : (g.erase id).size ≤ g.size :=
  List.length_filter_le ..

theorem size_erase_lt {g : Graph ν} {id : Nat} {e : Edge ν} (found : g.find? id = some e) :
    (g.erase id).size < g.size := by
  obtain ⟨member, same⟩ := find?_eq_some_iff.mp found
  exact List.length_filter_lt_length_iff_exists.mpr ⟨e, member, by simp [same]⟩

variable [DecidableEq ν]

def outgoing (g : Graph ν) (n : ν) : List (Edge ν) := g.edges.filter (·.source = n)

def incoming (g : Graph ν) (n : ν) : List (Edge ν) := g.edges.filter (·.target = n)

def outDegree (g : Graph ν) (n : ν) : Nat := (g.outgoing n).length

def sinks (g : Graph ν) : List ν := g.nodes.filter (g.outDegree · = 0)

def hasCopy (g : Graph ν) (e : Edge ν) : Bool := g.edges.any fun f => f.id ≠ e.id && e.isCopy f

/-- A list of nodes with one more at the end, unless it is there already. -/
def noteNode (ns : List ν) (n : ν) : List ν := if n ∈ ns then ns else ns ++ [n]

@[simp] theorem mem_noteNode {ns : List ν} {n m : ν} : m ∈ noteNode ns n ↔ m ∈ ns ∨ m = n := by
  unfold noteNode
  split <;> grind

theorem noteNode_nodup {ns : List ν} {n : ν} (distinct : ns.Nodup) : (noteNode ns n).Nodup := by
  unfold noteNode
  split
  · exact distinct
  · exact List.nodup_append.mpr ⟨distinct, by simp, by grind⟩

/-- Puts an edge behind the last one parallel to it, or at the end if there is none. -/
def place (e : Edge ν) : List (Edge ν) → List (Edge ν)
  | [] => [e]
  | f :: fs =>
      if f.isParallel e && !fs.any (·.isParallel e) then f :: e :: fs else f :: place e fs

theorem place_perm (e : Edge ν) (es : List (Edge ν)) : (place e es).Perm (e :: es) := by
  induction es with
  | nil => exact .refl _
  | cons f fs ih =>
      unfold place
      split
      · exact .swap e f fs
      · exact (ih.cons f).trans (.swap e f fs)

@[simp] theorem mem_place {e f : Edge ν} {es : List (Edge ν)} :
    f ∈ place e es ↔ f = e ∨ f ∈ es := by
  simp [(place_perm e es).mem_iff]

/-- Adds an edge and the nodes it joins. A graph that has the edge stays as it is. -/
def insert (g : Graph ν) (e : Edge ν) : Graph ν :=
  if present : g.has e.id then g
  else
    { nodes := noteNode (noteNode g.nodes e.source) e.target
      edges := place e g.edges
      nodes_nodup := noteNode_nodup (noteNode_nodup g.nodes_nodup)
      ids_nodup := by
        have absent : e.id ∉ g.edges.map Edge.id := by
          rw [← find?_eq_none_iff]
          simpa [has] using present
        rw [((place_perm e g.edges).map Edge.id).nodup_iff]
        exact List.nodup_cons.mpr ⟨absent, g.ids_nodup⟩
      ends_mem := by
        intro f member
        rcases mem_place.mp member with same | old
        · simp [same]
        · simp [g.ends_mem f old] }

/-- Takes an edge out and puts it back with another target, as the newest of its group. -/
def redirect (g : Graph ν) (id : Nat) (target : ν) : Graph ν :=
  match g.find? id with
  | some e => (g.erase id).insert { e with target }
  | none => g

def isIsolated (g : Graph ν) (n : ν) : Bool :=
  n ∈ g.nodes ∧ ∀ e ∈ g.edges, e.source ≠ n ∧ e.target ≠ n

/-- Forgets a node, provided that no edge starts or ends there. -/
def discard (g : Graph ν) (n : ν) : Graph ν :=
  if isolated : g.isIsolated n then
    { nodes := g.nodes.filter (· ≠ n)
      edges := g.edges
      nodes_nodup := List.filter_sublist.nodup g.nodes_nodup
      ids_nodup := g.ids_nodup
      ends_mem := by
        intro e member
        have apart := (of_decide_eq_true isolated).2 e member
        simpa [apart] using g.ends_mem e member }
  else g

def ofEdges (edges : List (Edge ν)) : Graph ν := edges.foldl insert empty

@[simp] theorem edges_discard (g : Graph ν) (n : ν) : (g.discard n).edges = g.edges := by
  unfold discard
  split <;> rfl

theorem mem_edges_insert {g : Graph ν} {e f : Edge ν} (absent : g.has e.id = false) :
    f ∈ (g.insert e).edges ↔ f = e ∨ f ∈ g.edges := by
  simp [insert, absent]

@[simp] theorem mem_outgoing {g : Graph ν} {n : ν} {e : Edge ν} :
    e ∈ g.outgoing n ↔ e ∈ g.edges ∧ e.source = n := by
  simp [outgoing]

@[simp] theorem mem_incoming {g : Graph ν} {n : ν} {e : Edge ν} :
    e ∈ g.incoming n ↔ e ∈ g.edges ∧ e.target = n := by
  simp [incoming]

theorem size_insert_le (g : Graph ν) (e : Edge ν) : (g.insert e).size ≤ g.size + 1 := by
  unfold insert
  split
  · omega
  · simp [size, (place_perm e g.edges).length_eq]

theorem size_redirect_le (g : Graph ν) (id : Nat) (target : ν) :
    (g.redirect id target).size ≤ g.size := by
  unfold redirect
  split
  case h_1 e found =>
    have := size_erase_lt found
    have := size_insert_le (g.erase id) { e with target }
    omega
  case h_2 => exact Nat.le_refl _

@[simp] theorem size_discard (g : Graph ν) (n : ν) : (g.discard n).size = g.size := by
  simp [size]

end Graph

end Deadwood
