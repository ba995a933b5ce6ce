import Mathlib.Data.Finset.Card
import Mathlib.Data.List.Sort
import Deadwood.Proofs.Interning

namespace Deadwood.Universe

/-!
The finite set of names that a bit set stands for. Whatever can be asked of a bit set has the answer
that the set of names would give, provided that all its ids have been given out.
-/

variable {u w : Universe} {s t : VarSet} {name : String} {id : Nat}

def nameSet (u : Universe) (s : VarSet) : Finset String := ((u.members s).map Var.name).toFinset

@[simp] theorem mem_nameSet : name ∈ u.nameSet s ↔ u.holds s name = true := by
  rw [← mem_names, nameSet, List.mem_toFinset, names, SortedSet.mem_ofList]

theorem nameSet_empty (u : Universe) : u.nameSet ∅ = ∅ := by
  ext name
  simp

theorem nameSet_union : u.nameSet (s ∪ t) = u.nameSet s ∪ u.nameSet t := by
  ext name
  simp

theorem nameSet_diff : u.nameSet (s \ t) = u.nameSet s \ u.nameSet t := by
  ext name
  simp

theorem GrowsTo.nameSet_eq (grown : u.GrowsTo w) (bounded : u.Bounds s) :
    w.nameSet s = u.nameSet s := by
  ext name
  simp [grown.holds_iff bounded]

theorem nameSet_internAll (u : Universe) (vs : List Var) :
    (u.internAll vs).2.nameSet (u.internAll vs).1 = (vs.map Var.name).toFinset := by
  ext name
  rw [mem_nameSet, (u.internAll_spec vs).2.2, List.mem_toFinset]

theorem nameSet_subset_iff (bounded : u.Bounds s) :
    u.nameSet s ⊆ u.nameSet t ↔ s.isSubset t = true := by
  rw [VarSet.isSubset_iff]
  constructor
  · intro below
    apply mem_of_holds bounded
    intro name held
    exact mem_nameSet.mp (below (mem_nameSet.mpr held))
  · intro below name held
    obtain ⟨id, member, known⟩ := holds_iff.mp (mem_nameSet.mp held)
    exact mem_nameSet.mpr (holds_iff.mpr ⟨id, below id member, known⟩)

theorem nameSet_inj (left : u.Bounds s) (right : u.Bounds t) :
    u.nameSet s = u.nameSet t ↔ s = t := by
  constructor
  · intro same
    apply eq_of_holds_iff left right
    intro name
    rw [← mem_nameSet, ← mem_nameSet, same]
  · exact fun same => same ▸ rfl

theorem nameSet_eq_empty_iff (bounded : u.Bounds s) : u.nameSet s = ∅ ↔ s.isEmpty = true := by
  have zero : (∅ : VarSet).isEmpty = true := rfl
  rw [← nameSet_empty u, nameSet_inj bounded (.empty u)]
  constructor
  · exact fun same => same ▸ zero
  · intro none
    exact VarSet.ext fun id => by simp [VarSet.isEmpty_iff.mp none id]

/-- Going through the ids of a set never meets one that has not been given out. -/
theorem map_var?_ids (bounded : u.Bounds s) : s.ids.map u.var? = (u.members s).map some := by
  have known : ∀ id ∈ s.ids, ∃ v, u.var? id = some v := by
    intro id member
    have within : id < u.vars.length := bounded id (VarSet.mem_ids.mp member)
    exact ⟨u.vars[id], List.getElem?_eq_getElem within⟩
  unfold members
  revert known
  induction s.ids with
  | nil => exact fun _ => rfl
  | cons id ids ih =>
      intro known
      obtain ⟨v, found⟩ := known id List.mem_cons_self
      have rest := ih fun other later => known other (List.mem_cons_of_mem _ later)
      rw [List.map_cons, rest, List.filterMap_cons_some found, List.map_cons, found]

theorem ids_eq_filter (bounded : u.Bounds s) : s.ids = (List.range u.size).filter s.contains := by
  apply s.ids_ascending.eq_of_mem_iff (List.pairwise_lt_range.filter _)
  intro id
  rw [VarSet.mem_ids, List.mem_filter, List.mem_range]
  exact ⟨fun member => ⟨bounded id member, member⟩, And.right⟩

/-- The members of a set come in the order in which their names were interned. -/
theorem members_eq_filter (bounded : u.Bounds s) :
    u.members s = u.vars.filter (·.name ∈ u.nameSet s) := by
  have table : (List.range u.size).map u.var? = u.vars.map some := by
    apply List.ext_getElem
    · simp [size]
    · intro id left right
      simp [var?]
  have chosen : ∀ id ∈ List.range u.size,
      s.contains id = (u.var? id).any (·.name ∈ u.nameSet s) := by
    intro id member
    have within : id < u.vars.length := List.mem_range.mp member
    have known : u.id? u.vars[id].name = some id :=
      id?_eq_some_iff.mpr ⟨_, List.getElem?_eq_getElem within, rfl⟩
    simp [var?, List.getElem?_eq_getElem within, holds, known]
  apply List.map_injective_iff.mpr (Option.some_injective Var)
  calc (u.members s).map some
      = ((List.range u.size).filter s.contains).map u.var? := by
        rw [← map_var?_ids bounded, ← ids_eq_filter bounded]
    _ = ((List.range u.size).map u.var?).filter (·.any (·.name ∈ u.nameSet s)) := by
        rw [List.filter_congr chosen, List.filter_map]
        rfl
    _ = (u.vars.filter (·.name ∈ u.nameSet s)).map some := by
        rw [table, List.filter_map]
        rfl

theorem members_sublist (bounded : u.Bounds s) : (u.members s).Sublist u.vars := by
  rw [members_eq_filter bounded]
  exact List.filter_sublist

theorem members_names_nodup (bounded : u.Bounds s) : ((u.members s).map Var.name).Nodup :=
  ((members_sublist bounded).map Var.name).nodup u.distinct

theorem card_nameSet (bounded : u.Bounds s) : (u.nameSet s).card = s.size := by
  rw [nameSet, List.toFinset_card_of_nodup (members_names_nodup bounded), List.length_map,
    VarSet.size, ← List.length_map u.var?, map_var?_ids bounded, List.length_map]

theorem intern_eq_of_mem {v : Var} (known : v ∈ u.vars) : (u.intern v).2 = u := by
  unfold intern
  split
  case h_1 => rfl
  case h_2 unknown => exact absurd (List.mem_map_of_mem known) (not_mem_of_id?_eq_none unknown)

theorem internAll_eq_of_subset {vs : List Var} (known : ∀ v ∈ vs, v ∈ u.vars) :
    (u.internAll vs).2 = u := by
  induction vs with
  | nil => rfl
  | cons v vs ih =>
      have first := intern_eq_of_mem (known v List.mem_cons_self)
      have rest := ih fun other later => known other (List.mem_cons_of_mem _ later)
      simp only [internAll, first, rest]

/-- To intern the members of a set gives the set back. -/
theorem internAll_members (bounded : u.Bounds s) : u.internAll (u.members s) = (s, u) := by
  have same : (u.internAll (u.members s)).2 = u :=
    internAll_eq_of_subset fun v member => (members_sublist bounded).subset member
  obtain ⟨_, within, _⟩ := u.internAll_spec (u.members s)
  have names := u.nameSet_internAll (u.members s)
  rw [same] at within names
  exact Prod.ext ((nameSet_inj within bounded).mp names) same

/-- The ids that have been given out are those below the size of the universe. -/
theorem id_lt_size_iff : id < u.size ↔ ∃ name, u.id? name = some id := by
  constructor
  · intro within
    exact ⟨_, id?_eq_some_iff.mpr ⟨_, List.getElem?_eq_getElem within, rfl⟩⟩
  · intro given
    obtain ⟨name, known⟩ := given
    exact id?_lt_size known

theorem id?_inj {other : String} (left : u.id? name = some id) (right : u.id? other = some id) :
    name = other := by
  obtain ⟨v, found, rfl⟩ := id?_eq_some_iff.mp left
  obtain ⟨x, again, rfl⟩ := id?_eq_some_iff.mp right
  rw [found, Option.some.injEq] at again
  rw [again]

end Deadwood.Universe
