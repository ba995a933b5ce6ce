namespace Deadwood

/-!
Finite sets kept as strictly ascending lists. Two sets with the same members are equal, so a set
can be a field of a value that is compared with `=`.
-/

open Std

variable {α : Type u} [Ord α]

/-- A finite set, as the strictly ascending list of its members. -/
structure SortedSet (α : Type u) [Ord α] where
  toList : List α
  ascending : toList.Pairwise (fun a b => compare a b = .lt)

namespace SortedSet

instance [DecidableEq α] : DecidableEq (SortedSet α) := fun s t =>
  decidable_of_iff (s.toList = t.toList)
    ⟨fun same => by cases s; cases t; cases same; rfl, congrArg toList⟩

instance : Membership α (SortedSet α) where
  mem s a := a ∈ s.toList

instance [DecidableEq α] (a : α) (s : SortedSet α) : Decidable (a ∈ s) :=
  inferInstanceAs (Decidable (a ∈ s.toList))

theorem mem_toList {a : α} {s : SortedSet α} : a ∈ s.toList ↔ a ∈ s := Iff.rfl

def empty : SortedSet α := ⟨[], .nil⟩

instance : EmptyCollection (SortedSet α) := ⟨empty⟩

instance : Inhabited (SortedSet α) := ⟨∅⟩

@[simp] theorem not_mem_empty (a : α) : a ∉ (∅ : SortedSet α) := fun member => by cases member

def isEmpty (s : SortedSet α) : Bool := s.toList.isEmpty

def size (s : SortedSet α) : Nat := s.toList.length

def min? (s : SortedSet α) : Option α := s.toList.head?

def max? (s : SortedSet α) : Option α := s.toList.getLast?

theorem isEmpty_eq_false_of_mem {a : α} {s : SortedSet α} (member : a ∈ s) : s.isEmpty = false :=
  List.isEmpty_eq_false_iff.mpr (List.ne_nil_of_mem member)

theorem min?_mem {a : α} {s : SortedSet α} (least : s.min? = some a) : a ∈ s :=
  List.mem_of_head? least

theorem max?_mem {a : α} {s : SortedSet α} (greatest : s.max? = some a) : a ∈ s :=
  List.mem_of_getLast? greatest

theorem min?_eq_none_iff {s : SortedSet α} : s.min? = none ↔ s.isEmpty = true := by
  simp [min?, isEmpty]

theorem max?_eq_none_iff {s : SortedSet α} : s.max? = none ↔ s.isEmpty = true := by
  simp [max?, isEmpty]

def insertList (x : α) : List α → List α
  | [] => [x]
  | y :: ys =>
      match compare x y with
      | .lt => x :: y :: ys
      | .eq => y :: ys
      | .gt => y :: insertList x ys

variable [LawfulEqOrd α]

theorem mem_insertList {a x : α} {ys : List α} : a ∈ insertList x ys ↔ a = x ∨ a ∈ ys := by
  induction ys with
  | nil => simp [insertList]
  | cons y ys ih =>
      cases order : compare x y with
      | lt => simp [insertList, order]
      | eq => simp [insertList, compare_eq_iff_eq.mp order]
      | gt => simp only [insertList, order, List.mem_cons, ih]; exact or_left_comm

theorem insertList_pairwise [TransOrd α] {x : α} {ys : List α}
    (ascending : ys.Pairwise (fun a b => compare a b = .lt)) :
    (insertList x ys).Pairwise (fun a b => compare a b = .lt) := by
  induction ys with
  | nil => simp [insertList]
  | cons y ys ih =>
      have ⟨first, rest⟩ := List.pairwise_cons.mp ascending
      cases order : compare x y with
      | lt =>
          simp only [insertList, order]
          refine List.pairwise_cons.mpr ⟨fun a member => ?_, ascending⟩
          rcases List.mem_cons.mp member with same | later
          · exact same ▸ order
          · exact TransCmp.lt_trans order (first a later)
      | eq => simpa only [insertList, order] using ascending
      | gt =>
          simp only [insertList, order]
          refine List.pairwise_cons.mpr ⟨fun a member => ?_, ih rest⟩
          rcases mem_insertList.mp member with same | later
          · exact same ▸ OrientedCmp.lt_of_gt order
          · exact first a later

/-- Adds a member; a set that has it already stays as it is. -/
def insert [TransOrd α] (s : SortedSet α) (x : α) : SortedSet α :=
  ⟨insertList x s.toList, insertList_pairwise s.ascending⟩

@[simp] theorem mem_insert [TransOrd α] {a x : α} {s : SortedSet α} :
    a ∈ s.insert x ↔ a = x ∨ a ∈ s := mem_insertList

def insertMany [TransOrd α] (s : SortedSet α) (xs : List α) : SortedSet α :=
  xs.foldl insert s

@[simp] theorem mem_insertMany [TransOrd α] {a : α} {s : SortedSet α} {xs : List α} :
    a ∈ s.insertMany xs ↔ a ∈ s ∨ a ∈ xs := by
  induction xs generalizing s with
  | nil => simp [insertMany]
  | cons x xs ih =>
      have step : s.insertMany (x :: xs) = (s.insert x).insertMany xs := rfl
      rw [step, ih, mem_insert, List.mem_cons]
      grind

def ofList [TransOrd α] (xs : List α) : SortedSet α := (∅ : SortedSet α).insertMany xs

@[simp] theorem mem_ofList [TransOrd α] {a : α} {xs : List α} : a ∈ ofList xs ↔ a ∈ xs := by
  simp [ofList]

def erase [DecidableEq α] (s : SortedSet α) (x : α) : SortedSet α :=
  ⟨s.toList.filter (· ≠ x), s.ascending.filter _⟩

omit [LawfulEqOrd α] in
@[simp] theorem mem_erase [DecidableEq α] {a x : α} {s : SortedSet α} :
    a ∈ s.erase x ↔ a ∈ s ∧ a ≠ x := by
  simp [erase, ← mem_toList]

theorem ext [TransOrd α] {s t : SortedSet α} (same : ∀ a, a ∈ s ↔ a ∈ t) : s = t := by
  obtain ⟨xs, sortedXs⟩ := s
  obtain ⟨ys, sortedYs⟩ := t
  congr
  have distinct (zs : List α) (sorted : zs.Pairwise (fun a b => compare a b = .lt)) : zs.Nodup :=
    sorted.imp fun below equal => by simp [equal] at below
  have perm : xs.Perm ys := by
    refine (List.perm_ext_iff_of_nodup (distinct xs sortedXs) (distinct ys sortedYs)).mpr same
  refine perm.eq_of_pairwise (fun a b _ _ below above => ?_) sortedXs sortedYs
  exact absurd (TransCmp.lt_trans below above) (by simp)

end SortedSet

end Deadwood
