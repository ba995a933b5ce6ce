import Mathlib.Data.Finset.Card
import Deadwood.Graph.Editor
import Deadwood.Proofs.Arrangement

namespace Deadwood

/-!
A graph under edits beside a ledger that is kept from the edits alone. Main statement: whatever the
edits, every view of the graph shows the edges that the ledger has, and just these.
-/

variable {ν : Type}

/-- The edges with their current targets, and the ids of those put in and not taken out since. -/
structure Ledger (ν : Type) where
  pool : List (Edge ν)
  inside : Finset Nat

namespace Ledger

def ofPool (pool : List (Edge ν)) (inside : List Nat) : Ledger ν := ⟨pool, inside.toFinset⟩

/-- Only an edge that is in the graph can be given another target. -/
def note (l : Ledger ν) : Edit ν → Ledger ν
  | .add id => { l with inside := insert id l.inside }
  | .remove id => { l with inside := l.inside.erase id }
  | .redirect id target =>
      if id ∈ l.inside then { l with pool := l.pool.modify id ({ · with target }) } else l
  | .discard _ => l

def noteAll (l : Ledger ν) (edits : List (Edit ν)) : Ledger ν := edits.foldl note l

def edges [DecidableEq ν] (l : Ledger ν) : Finset (Edge ν) :=
  l.pool.toFinset.filter (·.id ∈ l.inside)

@[simp] theorem mem_edges [DecidableEq ν] {l : Ledger ν} {e : Edge ν} :
    e ∈ l.edges ↔ e ∈ l.pool ∧ e.id ∈ l.inside := by
  simp [edges]

end Ledger

namespace Edge

variable {pool : List (Edge ν)} {e : Edge ν} {id : Nat}

/-- The id of an edge is its position. -/
def Numbered (pool : List (Edge ν)) : Prop :=
  ∀ (id : Nat) (e : Edge ν), pool[id]? = some e → e.id = id

theorem numbered_number (parts : List (ν × ν × Statement)) : Numbered (number parts) := by
  intro id e found
  rw [number, List.getElem?_mapIdx, Option.map_eq_some_iff] at found
  obtain ⟨_, _, rfl⟩ := found
  rfl

theorem Numbered.mem_iff (numbered : Numbered pool) : e ∈ pool ↔ pool[e.id]? = some e := by
  constructor
  · intro member
    obtain ⟨id, found⟩ := List.mem_iff_getElem?.mp member
    rw [numbered id e found]
    exact found
  · exact List.mem_of_getElem?

theorem Numbered.id_ne (numbered : Numbered pool) (unknown : pool[id]? = none) :
    e ∈ pool → e.id ≠ id := by
  intro member same
  rw [numbered.mem_iff, same, unknown] at member
  contradiction

theorem Numbered.modify (numbered : Numbered pool) (id : Nat) (target : ν) :
    Numbered (pool.modify id ({ · with target })) := by
  intro other f found
  rw [List.getElem?_modify, Option.map_eq_map, Option.map_eq_some_iff] at found
  obtain ⟨e, there, rfl⟩ := found
  have same := numbered other e there
  split <;> exact same

theorem Numbered.mem_modify (numbered : Numbered pool) (found : pool[id]? = some e) {target : ν}
    {f : Edge ν} :
    f ∈ pool.modify id ({ · with target }) ↔ f = { e with target } ∨ f ∈ pool ∧ f.id ≠ id := by
  have named := numbered id e found
  rw [(numbered.modify id target).mem_iff, numbered.mem_iff, List.getElem?_modify]
  by_cases same : id = f.id
  · rw [← same, found]
    simp [eq_comm]
  · have apart : f ≠ { e with target } := fun moved => same (by rw [moved]; exact named.symm)
    simp [same, apart, Ne.symm same]

end Edge

variable [DecidableEq ν]

namespace Graph

variable {g : Graph ν} {es : Finset (Edge ν)} {e : Edge ν} {n m : ν}

/-- Every view of a graph is exact: it lists each edge of the set that belongs there once. -/
structure Shows (g : Graph ν) (es : Finset (Edge ν)) : Prop where
  outgoing_once : ∀ n, ((g.outgoing n).map Edge.id).Nodup
  outgoing_iff : ∀ n e, e ∈ g.outgoing n ↔ e ∈ es ∧ e.source = n
  incoming_once : ∀ n, ((g.incoming n).map Edge.id).Nodup
  incoming_iff : ∀ n e, e ∈ g.incoming n ↔ e ∈ es ∧ e.target = n
  outDegree : ∀ n, g.outDegree n = (g.outgoing n).length
  size : g.size = es.card
  nodes_once : g.nodes.Nodup
  ends : ∀ e ∈ es, e.source ∈ g.nodes ∧ e.target ∈ g.nodes
  sinks_once : g.sinks.Nodup
  sinks_iff : ∀ n, n ∈ g.sinks ↔ n ∈ g.nodes ∧ ∀ e ∈ es, e.source ≠ n

theorem shows_of_mem_iff (same : ∀ e, e ∈ g.edges ↔ e ∈ es) : g.Shows es where
  outgoing_once n := (List.filter_sublist.map Edge.id).nodup g.ids_nodup
  outgoing_iff n e := by rw [mem_outgoing, same]
  incoming_once n := (List.filter_sublist.map Edge.id).nodup g.ids_nodup
  incoming_iff n e := by rw [mem_incoming, same]
  outDegree n := rfl
  size := by
    have listed : g.edges.toFinset = es := by
      ext e
      rw [List.mem_toFinset, same]
    rw [← listed, List.toFinset_card_of_nodup g.nodup_edges]
    rfl
  nodes_once := g.nodes_nodup
  ends e member := g.ends_mem e ((same e).mpr member)
  sinks_once := g.nodes_nodup.filter _
  sinks_iff n := by simp [sinks, Graph.outDegree, outgoing, List.filter_eq_nil_iff, same]

omit [DecidableEq ν] in
theorem has_iff_mem (named : ∀ f ∈ g.edges, f.id = e.id → f = e) :
    g.has e.id = true ↔ e ∈ g.edges := by
  constructor
  · intro present
    obtain ⟨f, found⟩ := Option.isSome_iff_exists.mp present
    obtain ⟨member, same⟩ := find?_eq_some_iff.mp found
    exact named f member same ▸ member
  · exact has_of_mem

theorem remove_of_has (present : g.has e.id = true) : g.remove e = .ok (g.erase e.id) :=
  if_pos present

theorem remove_of_not_has (absent : g.has e.id = false) : ∃ error, g.remove e = .error error := by
  rw [remove, absent, if_neg Bool.false_ne_true]
  split
  · exact ⟨_, rfl⟩
  · exact ⟨_, rfl⟩

theorem mem_nodes_remove {without : Graph ν} (removed : g.remove e = .ok without)
    (known : n ∈ g.nodes) : n ∈ without.nodes := by
  cases present : g.has e.id with
  | true =>
      rw [remove_of_has present, Except.ok.injEq] at removed
      rw [← removed]
      exact known
  | false =>
      obtain ⟨error, failed⟩ := remove_of_not_has present
      rw [failed] at removed
      contradiction

theorem mem_nodes_insert_of_mem (known : n ∈ g.nodes) : n ∈ (g.insert e).nodes := by
  cases present : g.has e.id with
  | true =>
      rw [insert, dif_pos present]
      exact known
  | false => exact (mem_nodes_insert present).mpr (.inl known)

theorem mem_nodes_discard :
    m ∈ (g.discard n).nodes ↔ m ∈ g.nodes ∧ ¬ (m = n ∧ g.isIsolated n = true) := by
  cases isolated : g.isIsolated n with
  | true => simp [discard, isolated]
  | false => simp [discard, isolated]

end Graph

namespace Editor

variable {ed : Editor ν} {l : Ledger ν} {e : Edge ν} {n : ν} {id : Nat}

/-- The editor after a change. One that fails leaves it as it was. -/
def perform (ed : Editor ν) (edit : Edit ν) : Editor ν :=
  match ed.apply edit with
  | .ok next => next
  | .error _ => ed

def performAll (ed : Editor ν) (edits : List (Edit ν)) : Editor ν := edits.foldl perform ed

def Refuses (ed : Editor ν) (edit : Edit ν) : Prop := ∃ error, ed.apply edit = .error error

theorem perform_of_ok {edit : Edit ν} {next : Editor ν} (done : ed.apply edit = .ok next) :
    ed.perform edit = next := by
  rw [perform, done]

theorem perform_of_refuses {edit : Edit ν} (refused : ed.Refuses edit) : ed.perform edit = ed := by
  obtain ⟨error, failed⟩ := refused
  rw [perform, failed]

/-- The ledger of an editor: it has the same pool, and the edges of the graph are those that it has
inside. -/
structure Follows (ed : Editor ν) (l : Ledger ν) : Prop where
  pool : ed.pool = l.pool
  numbered : Edge.Numbered l.pool
  edges_iff : ∀ e, e ∈ ed.graph.edges ↔ e ∈ l.pool ∧ e.id ∈ l.inside

namespace Follows

omit [DecidableEq ν] in
theorem edge?_eq (follows : ed.Follows l) (id : Nat) : ed.edge? id = l.pool[id]? := by
  rw [edge?, follows.pool]

omit [DecidableEq ν] in
/-- An id names one edge of the pool, so it names at most one edge of the graph. -/
theorem eq_of_id_eq (follows : ed.Follows l) (found : l.pool[id]? = some e) :
    ∀ f ∈ ed.graph.edges, f.id = e.id → f = e := by
  intro f member same
  have there := follows.numbered.mem_iff.mp ((follows.edges_iff f).mp member).1
  rw [same, follows.numbered id e found, found, Option.some.injEq] at there
  exact there.symm

omit [DecidableEq ν] in
theorem has_iff (follows : ed.Follows l) (found : l.pool[id]? = some e) :
    ed.graph.has e.id = true ↔ id ∈ l.inside := by
  rw [Graph.has_iff_mem (follows.eq_of_id_eq found), follows.edges_iff, follows.numbered id e found]
  exact and_iff_right (List.mem_of_getElem? found)

theorem add (follows : ed.Follows l) (id : Nat) :
    (ed.perform (.add id)).Follows (l.note (.add id)) := by
  cases found : l.pool[id]? with
  | none =>
      have idle : ed.perform (.add id) = ed :=
        perform_of_ok (by simp only [apply, follows.edge?_eq, found])
      rw [idle]
      refine ⟨follows.pool, follows.numbered, fun f => ?_⟩
      rw [follows.edges_iff]
      have apart := follows.numbered.id_ne (e := f) found
      simp only [Ledger.note, Finset.mem_insert]
      grind
  | some e =>
      have named := follows.numbered id e found
      have done : ed.perform (.add id) = { ed with graph := ed.graph.insert e } :=
        perform_of_ok (by simp only [apply, follows.edge?_eq, found])
      rw [done]
      refine ⟨follows.pool, follows.numbered, fun f => ?_⟩
      have listed := List.mem_of_getElem? found
      have unique := follows.numbered.mem_iff (e := f)
      rw [(Graph.insert_spec (follows.eq_of_id_eq found)).1, follows.edges_iff]
      simp only [Ledger.note, Finset.mem_insert]
      grind

theorem refuses_remove_iff (follows : ed.Follows l) (found : l.pool[id]? = some e) :
    ed.Refuses (.remove id) ↔ id ∉ l.inside := by
  rw [← follows.has_iff found, Bool.not_eq_true]
  cases present : ed.graph.has e.id with
  | true => simp [Refuses, apply, follows.edge?_eq, found, Graph.remove_of_has present]
  | false =>
      obtain ⟨error, failed⟩ := Graph.remove_of_not_has present
      simp [Refuses, apply, follows.edge?_eq, found, failed]

theorem refuses_redirect_iff (follows : ed.Follows l) (found : l.pool[id]? = some e) (target : ν) :
    ed.Refuses (.redirect id target) ↔ id ∉ l.inside := by
  rw [← follows.has_iff found, Bool.not_eq_true]
  cases present : ed.graph.has e.id with
  | true => simp [Refuses, apply, redirect, follows.edge?_eq, found, Graph.remove_of_has present]
  | false =>
      obtain ⟨error, failed⟩ := Graph.remove_of_not_has present
      simp [Refuses, apply, redirect, follows.edge?_eq, found, failed]

theorem remove (follows : ed.Follows l) (id : Nat) :
    (ed.perform (.remove id)).Follows (l.note (.remove id)) := by
  cases found : l.pool[id]? with
  | none =>
      have idle : ed.perform (.remove id) = ed :=
        perform_of_ok (by simp only [apply, follows.edge?_eq, found])
      rw [idle]
      refine ⟨follows.pool, follows.numbered, fun f => ?_⟩
      have apart := follows.numbered.id_ne (e := f) found
      rw [follows.edges_iff]
      simp only [Ledger.note, Finset.mem_erase]
      grind
  | some e =>
      have named := follows.numbered id e found
      by_cases inside : id ∈ l.inside
      · have present := (follows.has_iff found).mpr inside
        have done : ed.perform (.remove id) = { ed with graph := ed.graph.erase id } :=
          perform_of_ok (by
            simp only [apply, follows.edge?_eq, found, Graph.remove_of_has present, named]
            rfl)
        rw [done]
        refine ⟨follows.pool, follows.numbered, fun f => ?_⟩
        rw [Graph.mem_edges_erase, follows.edges_iff]
        simp only [Ledger.note, Finset.mem_erase]
        grind
      · have kept : l.note (.remove id) = l := by rw [Ledger.note, Finset.erase_eq_of_notMem inside]
        rw [perform_of_refuses ((follows.refuses_remove_iff found).mpr inside), kept]
        exact follows

theorem redirect (follows : ed.Follows l) (id : Nat) (target : ν) :
    (ed.perform (.redirect id target)).Follows (l.note (.redirect id target)) := by
  cases found : l.pool[id]? with
  | none =>
      have idle : ed.perform (.redirect id target) = ed :=
        perform_of_ok (by simp only [apply, follows.edge?_eq, found])
      have kept : l.note (.redirect id target) = l := by
        have beyond := List.getElem?_eq_none_iff.mp found
        simp [Ledger.note, List.modify_eq_self beyond]
      rw [idle, kept]
      exact follows
  | some e =>
      obtain rfl := follows.numbered id e found
      by_cases inside : e.id ∈ l.inside
      · have present := (follows.has_iff found).mpr inside
        let moved : Edge ν := { e with target }
        have pool : ed.pool.set e.id moved = l.pool.modify e.id ({ · with target }) := by
          rw [follows.pool, List.modify_eq_set_getElem?, found]
          rfl
        have done : ed.perform (.redirect e.id target) =
            { pool := l.pool.modify e.id ({ · with target })
              graph := (ed.graph.erase e.id).insert moved } :=
          perform_of_ok (by
            simp only [apply, Editor.redirect, follows.edge?_eq, found,
              Graph.remove_of_has present, ← pool]
            rfl)
        have noted : l.note (.redirect e.id target) =
            { l with pool := l.pool.modify e.id ({ · with target }) } := if_pos inside
        have absent : (ed.graph.erase e.id).has moved.id = false := ed.graph.has_erase e.id
        rw [done, noted]
        refine ⟨rfl, follows.numbered.modify e.id target, fun f => ?_⟩
        rw [Graph.mem_edges_insert absent, Graph.mem_edges_erase, follows.edges_iff,
          follows.numbered.mem_modify found]
        grind
      · rw [perform_of_refuses ((follows.refuses_redirect_iff found target).mpr inside), Ledger.note,
          if_neg inside]
        exact follows

theorem perform (follows : ed.Follows l) (edit : Edit ν) :
    (ed.perform edit).Follows (l.note edit) := by
  cases edit with
  | add id => exact follows.add id
  | remove id => exact follows.remove id
  | redirect id target => exact follows.redirect id target
  | discard n =>
      refine ⟨follows.pool, follows.numbered, fun e => ?_⟩
      have kept : (ed.perform (.discard n)).graph.edges = ed.graph.edges := ed.graph.edges_discard n
      rw [kept]
      exact follows.edges_iff e

theorem performAll (follows : ed.Follows l) (edits : List (Edit ν)) :
    (ed.performAll edits).Follows (l.noteAll edits) := by
  induction edits generalizing ed l with
  | nil => exact follows
  | cons edit edits ih => exact ih (follows.perform edit)

end Follows

theorem ofPool_follows {pool : List (Edge ν)} (numbered : Edge.Numbered pool) (inside : List Nat) :
    (ofPool pool inside).Follows (.ofPool pool inside) := by
  have chosen : ∀ e, e ∈ inside.filterMap (pool[·]?) ↔ e ∈ pool ∧ e.id ∈ inside := by
    intro e
    rw [List.mem_filterMap]
    constructor
    · intro given
      obtain ⟨id, listed, found⟩ := given
      exact ⟨List.mem_of_getElem? found, numbered id e found ▸ listed⟩
    · intro given
      exact ⟨e.id, given.2, numbered.mem_iff.mp given.1⟩
  have identified : Edge.Identified (inside.filterMap (pool[·]?)) := by
    intro e left f right same
    have first := numbered.mem_iff.mp ((chosen e).mp left).1
    have second := numbered.mem_iff.mp ((chosen f).mp right).1
    rw [same, second, Option.some.injEq] at first
    exact first.symm
  refine ⟨rfl, numbered, fun e => ?_⟩
  rw [Ledger.ofPool, List.mem_toFinset, ← chosen]
  exact Graph.mem_edges_ofEdges identified

theorem mem_nodes_perform {edit : Edit ν} (known : n ∈ ed.graph.nodes)
    (other : edit ≠ .discard n) : n ∈ (ed.perform edit).graph.nodes := by
  cases edit with
  | add id =>
      cases found : ed.edge? id with
      | none => simpa only [perform, apply, found] using known
      | some e => simpa only [perform, apply, found] using Graph.mem_nodes_insert_of_mem known
  | remove id =>
      cases found : ed.edge? id with
      | none => simpa only [perform, apply, found] using known
      | some e =>
          simp only [perform, apply, found]
          cases removed : ed.graph.remove e with
          | error _ => exact known
          | ok without => exact Graph.mem_nodes_remove removed known
  | redirect id target =>
      cases found : ed.edge? id with
      | none => simpa only [perform, apply, found] using known
      | some e =>
          simp only [perform, apply, redirect, found]
          cases removed : ed.graph.remove e with
          | error _ => exact known
          | ok without =>
              exact Graph.mem_nodes_insert_of_mem (Graph.mem_nodes_remove removed known)
  | discard m =>
      have apart : n ≠ m := fun same => other (by rw [same])
      exact Graph.mem_nodes_discard.mpr ⟨known, fun lost => apart lost.1⟩

/-- The graph of a pool is an exact index of the edges put in and not taken out, whatever the edits.
Its views list these edges under their current ends, each once. A removal and a redirection are
refused just when the edge is not among them, and then nothing changes. A node is lost only when it
is discarded and no edge starts or ends there. -/
theorem edited_graph_shows_ledger (parts : List (ν × ν × Statement)) (inside : List Nat)
    (edits : List (Edit ν)) :
    let ed := (ofPool (Edge.number parts) inside).performAll edits
    let l := (Ledger.ofPool (Edge.number parts) inside).noteAll edits
    ed.pool = l.pool ∧ ed.graph.Shows l.edges ∧
    (∀ id e target, ed.edge? id = some e →
      (ed.Refuses (.remove id) ↔ e ∉ l.edges) ∧
      (ed.Refuses (.redirect id target) ↔ e ∉ l.edges) ∧
      (e ∉ l.edges →
        ed.perform (.remove id) = ed ∧ ed.perform (.redirect id target) = ed)) ∧
    ∀ edit, ∀ n ∈ ed.graph.nodes, n ∉ (ed.perform edit).graph.nodes ↔
      edit = .discard n ∧ ∀ e ∈ l.edges, e.source ≠ n ∧ e.target ≠ n := by
  intro ed l
  have follows : ed.Follows l :=
    (ofPool_follows (Edge.numbered_number parts) inside).performAll edits
  have same : ∀ e, e ∈ ed.graph.edges ↔ e ∈ l.edges := by
    intro e
    rw [follows.edges_iff, Ledger.mem_edges]
  refine ⟨follows.pool, Graph.shows_of_mem_iff same, ?_, ?_⟩
  · intro id e target found
    rw [follows.edge?_eq] at found
    have absent : e ∉ l.edges ↔ id ∉ l.inside := by
      rw [Ledger.mem_edges, follows.numbered id e found]
      simp [List.mem_of_getElem? found]
    have removal := (follows.refuses_remove_iff found).trans absent.symm
    have redirection := (follows.refuses_redirect_iff found target).trans absent.symm
    refine ⟨removal, redirection, fun outside => ⟨?_, ?_⟩⟩
    · exact perform_of_refuses (removal.mpr outside)
    · exact perform_of_refuses (redirection.mpr outside)
  · intro edit n known
    have alone : ed.graph.isIsolated n = true ↔ ∀ e ∈ l.edges, e.source ≠ n ∧ e.target ≠ n := by
      simp [Graph.isIsolated, known, same]
    rw [← alone]
    constructor
    · intro lost
      have discarded : edit = .discard n := by
        by_contra other
        exact lost (mem_nodes_perform known other)
      refine ⟨discarded, ?_⟩
      by_contra connected
      rw [discarded] at lost
      exact lost (Graph.mem_nodes_discard.mpr ⟨known, fun gone => connected gone.2⟩)
    · intro given
      obtain ⟨rfl, isolated⟩ := given
      exact fun kept => (Graph.mem_nodes_discard.mp kept).2 ⟨rfl, isolated⟩

end Editor

end Deadwood
