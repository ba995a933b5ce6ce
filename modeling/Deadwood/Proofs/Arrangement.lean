import Mathlib.Data.List.Nodup
import Deadwood.Proofs.Construction

namespace Deadwood

/-!
Arranged edges: none is a copy of another, each has an id of its own, and to arrange them once more
changes nothing. The graph built from them has each of them once.
-/

variable {ν : Type} {edges : List (Edge ν)} {e f : Edge ν}

namespace Edge

theorem Identified.ids_nodup (identified : Identified edges) (nodup : edges.Nodup) :
    (edges.map id).Nodup :=
  nodup.map_on identified

variable [DecidableEq ν]

/-- No edge is a copy of another. -/
def Distinct (edges : List (Edge ν)) : Prop :=
  ∀ e ∈ edges, ∀ f ∈ edges, e.isCopy f = true → e = f

theorem mem_withoutCopies_cons :
    e ∈ withoutCopies (f :: edges) ↔ e = f ∨ e ∈ withoutCopies edges ∧ ¬ f.isCopy e = true := by
  simp [withoutCopies]

theorem nodup_withoutCopies (edges : List (Edge ν)) : (withoutCopies edges).Nodup := by
  induction edges with
  | nil => exact .nil
  | cons first rest ih =>
      refine List.nodup_cons.mpr ⟨fun kept => ?_, ih.filter _⟩
      simp [first.isCopy_refl] at kept

theorem distinct_withoutCopies (edges : List (Edge ν)) : Distinct (withoutCopies edges) := by
  induction edges with
  | nil => intro e left; cases left
  | cons first rest ih =>
      intro e left f right copy
      rcases mem_withoutCopies_cons.mp left with rfl | ⟨keptLeft, apartLeft⟩ <;>
        rcases mem_withoutCopies_cons.mp right with rfl | ⟨keptRight, apartRight⟩
      · rfl
      · exact absurd copy apartRight
      · exact absurd (isCopy_symm copy) apartLeft
      · exact ih e keptLeft f keptRight copy

theorem withoutCopies_eq_self (nodup : edges.Nodup) (distinct : Distinct edges) :
    withoutCopies edges = edges := by
  induction edges with
  | nil => rfl
  | cons first rest ih =>
      obtain ⟨fresh, others⟩ := List.nodup_cons.mp nodup
      have tail : Distinct rest := fun e left f right =>
        distinct e (List.mem_cons_of_mem _ left) f (List.mem_cons_of_mem _ right)
      have apart : ∀ e ∈ rest, (!first.isCopy e) = true := by
        intro e later
        rw [Bool.not_eq_true', ← Bool.not_eq_true]
        intro copy
        exact fresh (distinct first List.mem_cons_self e (List.mem_cons_of_mem _ later) copy ▸ later)
      rw [withoutCopies, ih others tail, List.filter_eq_self.mpr apart]

variable [Node ν]

theorem nodup_arrange (edges : List (Edge ν)) : (arrange edges).Nodup :=
  (sort_perm _).nodup_iff.mpr (nodup_withoutCopies edges)

theorem distinct_arrange (edges : List (Edge ν)) : Distinct (arrange edges) :=
  fun e left f right => distinct_withoutCopies edges e (mem_sort.mp left) f (mem_sort.mp right)

omit [DecidableEq ν] in
theorem sort_keyLe_pairwise (edges : List (Edge ν)) :
    (sort keyLe edges).Pairwise fun e f => e.keyLe f = true := by
  apply sort_pairwise
  · exact fun _ _ _ => keyLe_trans
  · exact keyLe_total

theorem arrange_eq_self (sorted : edges.Pairwise fun e f => e.keyLe f = true)
    (nodup : edges.Nodup) (distinct : Distinct edges) : arrange edges = edges := by
  rw [arrange, withoutCopies_eq_self nodup distinct, sort_eq_self sorted]

end Edge

namespace Graph

theorem nodup_edges (g : Graph ν) : g.edges.Nodup := .of_map Edge.id g.ids_nodup

variable [DecidableEq ν]

theorem edges_ofEdges_perm (identified : Edge.Identified edges) (nodup : edges.Nodup) :
    (ofEdges edges).edges.Perm edges :=
  (List.perm_ext_iff_of_nodup (nodup_edges _) nodup).mpr fun _ => mem_edges_ofEdges identified

end Graph

end Deadwood
