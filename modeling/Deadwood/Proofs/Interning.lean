import Deadwood.Universe

namespace Deadwood.Universe

/-!
Sets of ids read as sets of names. A universe that has grown gives every id it had before the same
name, so a set whose ids are all known keeps its names while other variables are interned.
-/

variable {u w x : Universe} {s t : VarSet} {name : String} {id : Nat}

/-- The second universe knows all that the first one knows, under the same ids. -/
def GrowsTo (u w : Universe) : Prop := u.vars <+: w.vars

/-- Every id of the set has been given out. -/
def Bounds (u : Universe) (s : VarSet) : Prop := ∀ id ∈ s, id < u.size

theorem GrowsTo.refl (u : Universe) : u.GrowsTo u := List.prefix_rfl

theorem GrowsTo.trans (first : u.GrowsTo w) (second : w.GrowsTo x) : u.GrowsTo x :=
  List.IsPrefix.trans first second

theorem GrowsTo.size_le (grown : u.GrowsTo w) : u.size ≤ w.size := List.IsPrefix.length_le grown

theorem Bounds.mono (bounded : u.Bounds s) (grown : u.GrowsTo w) : w.Bounds s :=
  fun id member => Nat.lt_of_lt_of_le (bounded id member) grown.size_le

theorem Bounds.empty (u : Universe) : u.Bounds ∅ := fun id member => absurd member (by simp)

theorem Bounds.union (left : u.Bounds s) (right : u.Bounds t) : u.Bounds (s ∪ t) := by
  intro id member
  rcases VarSet.mem_union.mp member with first | second
  · exact left id first
  · exact right id second

theorem Bounds.diff (bounded : u.Bounds s) : u.Bounds (s \ t) :=
  fun id member => bounded id (VarSet.mem_diff.mp member).1

theorem id?_eq_some_iff :
    u.id? name = some id ↔ ∃ v, u.vars[id]? = some v ∧ v.name = name := by
  rw [id?, List.findIdx?_eq_some_iff_getElem]
  constructor
  · intro given
    obtain ⟨within, found, _⟩ := given
    exact ⟨u.vars[id], List.getElem?_eq_getElem within, by simpa using found⟩
  · intro given
    obtain ⟨v, found, rfl⟩ := given
    obtain ⟨within, rfl⟩ := List.getElem?_eq_some_iff.mp found
    refine ⟨within, by simp, fun earlier below same => ?_⟩
    have apart := List.pairwise_iff_getElem.mp u.distinct earlier id
      (by simpa using Nat.lt_trans below within) (by simpa using within) below
    simp only [List.getElem_map] at apart
    exact apart (by simpa using same)

theorem id?_lt_size (known : u.id? name = some id) : id < u.size := by
  obtain ⟨_, found, _⟩ := id?_eq_some_iff.mp known
  exact (List.getElem?_eq_some_iff.mp found).1

theorem GrowsTo.id?_eq (grown : u.GrowsTo w) (known : u.id? name = some id) :
    w.id? name = some id := by
  obtain ⟨v, found, same⟩ := id?_eq_some_iff.mp known
  obtain ⟨rest, grownBy⟩ := grown
  have within := (List.getElem?_eq_some_iff.mp found).1
  refine id?_eq_some_iff.mpr ⟨v, ?_, same⟩
  rw [← grownBy, List.getElem?_append_left within]
  exact found

theorem holds_iff : u.holds s name = true ↔ ∃ id ∈ s, u.id? name = some id := by
  unfold holds
  cases known : u.id? name with
  | none => simp
  | some id =>
      simp only [Option.any_some, Option.some.injEq, exists_eq_right']
      exact Iff.rfl

theorem GrowsTo.holds_iff (grown : u.GrowsTo w) (bounded : u.Bounds s) :
    w.holds s name = true ↔ u.holds s name = true := by
  rw [Universe.holds_iff, Universe.holds_iff]
  constructor
  · intro given
    obtain ⟨id, member, known⟩ := given
    obtain ⟨v, found, same⟩ := id?_eq_some_iff.mp known
    have within := bounded id member
    have old : u.vars[id]? = some v := by
      obtain ⟨rest, grownBy⟩ := grown
      rw [← grownBy, List.getElem?_append_left within] at found
      exact found
    exact ⟨id, member, id?_eq_some_iff.mpr ⟨v, old, same⟩⟩
  · intro given
    obtain ⟨id, member, known⟩ := given
    exact ⟨id, member, grown.id?_eq known⟩

@[simp] theorem holds_empty (u : Universe) (name : String) : u.holds ∅ name = false := by
  rw [← Bool.not_eq_true, holds_iff]
  simp

@[simp] theorem holds_union :
    u.holds (s ∪ t) name = true ↔ u.holds s name = true ∨ u.holds t name = true := by
  simp only [holds_iff, VarSet.mem_union, or_and_right, exists_or]

@[simp] theorem holds_diff :
    u.holds (s \ t) name = true ↔ u.holds s name = true ∧ ¬ u.holds t name = true := by
  simp only [holds_iff, VarSet.mem_diff]
  constructor
  · intro given
    obtain ⟨id, ⟨member, outside⟩, known⟩ := given
    refine ⟨⟨id, member, known⟩, ?_⟩
    intro given
    obtain ⟨other, inside, same⟩ := given
    rw [known, Option.some.injEq] at same
    exact outside (same ▸ inside)
  · intro given
    obtain ⟨⟨id, member, known⟩, none⟩ := given
    exact ⟨id, ⟨member, fun inside => none ⟨id, inside, known⟩⟩, known⟩

theorem mem_of_holds (bounded : u.Bounds s)
    (below : ∀ name, u.holds s name = true → u.holds t name = true) : ∀ id ∈ s, id ∈ t := by
  intro id member
  have within : id < u.vars.length := bounded id member
  have known : u.id? u.vars[id].name = some id :=
    id?_eq_some_iff.mpr ⟨_, List.getElem?_eq_getElem within, rfl⟩
  obtain ⟨other, inside, found⟩ := holds_iff.mp (below _ (holds_iff.mpr ⟨id, member, known⟩))
  rw [known, Option.some.injEq] at found
  exact found ▸ inside

theorem eq_of_holds_iff (left : u.Bounds s) (right : u.Bounds t)
    (same : ∀ name, u.holds s name = true ↔ u.holds t name = true) : s = t :=
  VarSet.ext fun id =>
    ⟨mem_of_holds left (fun name => (same name).mp) id,
      mem_of_holds right (fun name => (same name).mpr) id⟩

theorem mem_names : name ∈ u.names s ↔ u.holds s name = true := by
  simp only [names, SortedSet.mem_ofList, members, List.mem_map, List.mem_filterMap,
    VarSet.mem_ids, var?, holds_iff, id?_eq_some_iff]
  constructor
  · intro given
    obtain ⟨v, ⟨id, member, found⟩, same⟩ := given
    exact ⟨id, member, v, found, same⟩
  · intro given
    obtain ⟨id, member, v, found, same⟩ := given
    exact ⟨v, ⟨id, member, found⟩, same⟩

theorem intern_spec (u : Universe) (v : Var) :
    u.GrowsTo (u.intern v).2 ∧ (u.intern v).2.id? v.name = some (u.intern v).1 := by
  unfold intern
  split
  case h_1 id known => exact ⟨.refl u, known⟩
  case h_2 unknown =>
    refine ⟨List.prefix_append .., id?_eq_some_iff.mpr ⟨v, ?_, rfl⟩⟩
    simp [size]

/-- Interning variables yields the set of exactly these, in a universe that has grown. -/
theorem internAll_spec (u : Universe) (vs : List Var) :
    u.GrowsTo (u.internAll vs).2 ∧ (u.internAll vs).2.Bounds (u.internAll vs).1 ∧
      ∀ name, (u.internAll vs).2.holds (u.internAll vs).1 name = true ↔
        name ∈ vs.map Var.name := by
  induction vs generalizing u with
  | nil => exact ⟨.refl u, .empty u, by simp [internAll]⟩
  | cons v vs ih =>
      obtain ⟨first, known⟩ := u.intern_spec v
      obtain ⟨rest, bounded, holds⟩ := ih (u.intern v).2
      have kept := rest.id?_eq known
      have single : ((u.intern v).2.internAll vs).2.Bounds (.singleton (u.intern v).1) := by
        intro id member
        rw [VarSet.mem_singleton.mp member]
        exact id?_lt_size kept
      refine ⟨first.trans rest, single.union bounded, fun name => ?_⟩
      simp only [internAll, holds_union, holds, List.map_cons, List.mem_cons]
      rw [holds_iff]
      simp only [VarSet.mem_singleton, exists_eq_left]
      constructor
      · intro given
        rcases given with found | later
        · obtain ⟨a, atName, sameName⟩ := id?_eq_some_iff.mp found
          obtain ⟨b, atV, sameV⟩ := id?_eq_some_iff.mp kept
          rw [atName, Option.some.injEq] at atV
          exact .inl (by rw [← sameName, ← sameV, atV])
        · exact .inr later
      · intro given
        rcases given with rfl | later
        · exact .inl kept
        · exact .inr later

theorem internNames_spec (u : Universe) (names : List String) :
    u.GrowsTo (u.internNames names).2 ∧ (u.internNames names).2.Bounds (u.internNames names).1 ∧
      ∀ name, (u.internNames names).2.holds (u.internNames names).1 name = true ↔
        name ∈ names := by
  obtain ⟨grown, bounded, holds⟩ := u.internAll_spec (names.map ({ name := · }))
  refine ⟨grown, bounded, fun name => ?_⟩
  rw [internNames, holds, List.map_map]
  simp [Function.comp_def]

end Deadwood.Universe
