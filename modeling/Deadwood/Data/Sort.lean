namespace Deadwood

/-!
A stable sort by insertion. It is structural, so closed examples evaluate, and the lists of this
library are short and mostly in order already.
-/

variable {α : Type u} {le : α → α → Bool}

/-- Places an element before the first one it does not exceed. -/
def insertSorted (le : α → α → Bool) (x : α) : List α → List α
  | [] => [x]
  | y :: ys => if le x y then x :: y :: ys else y :: insertSorted le x ys

/-- The elements in ascending order; those that compare equal keep the order they came in. -/
def sort (le : α → α → Bool) (xs : List α) : List α :=
  xs.foldr (insertSorted le) []

@[simp] theorem sort_cons (x : α) (xs : List α) :
    sort le (x :: xs) = insertSorted le x (sort le xs) := rfl

theorem insertSorted_perm (x : α) (xs : List α) : (insertSorted le x xs).Perm (x :: xs) := by
  induction xs with
  | nil => exact .refl _
  | cons y ys ih =>
      unfold insertSorted
      split
      · exact .refl _
      · exact (ih.cons y).trans (.swap x y ys)

theorem sort_perm (xs : List α) : (sort le xs).Perm xs := by
  induction xs with
  | nil => exact .refl _
  | cons x xs ih => exact (insertSorted_perm x _).trans (ih.cons x)

@[simp] theorem mem_sort {a : α} {xs : List α} : a ∈ sort le xs ↔ a ∈ xs :=
  (sort_perm xs).mem_iff

theorem insertSorted_pairwise (trans : ∀ a b c, le a b → le b c → le a c)
    (total : ∀ a b, le a b ∨ le b a) (x : α) (xs : List α)
    (sorted : xs.Pairwise (fun a b => le a b)) :
    (insertSorted le x xs).Pairwise (fun a b => le a b) := by
  induction xs with
  | nil => simp [insertSorted]
  | cons y ys ih =>
      have ⟨first, rest⟩ := List.pairwise_cons.mp sorted
      unfold insertSorted
      split
      case isTrue below =>
        refine List.pairwise_cons.mpr ⟨fun a member => ?_, sorted⟩
        rcases List.mem_cons.mp member with same | later
        · exact same ▸ below
        · exact trans _ _ _ below (first a later)
      case isFalse above =>
        refine List.pairwise_cons.mpr ⟨fun a member => ?_, ih rest⟩
        rcases List.mem_cons.mp ((insertSorted_perm x ys).mem_iff.mp member) with same | later
        · exact same ▸ (total x y).resolve_left above
        · exact first a later

/-- Sorting yields an ascending list whenever the comparison is a total preorder. -/
theorem sort_pairwise (trans : ∀ a b c, le a b → le b c → le a c)
    (total : ∀ a b, le a b ∨ le b a) (xs : List α) :
    (sort le xs).Pairwise (fun a b => le a b) := by
  induction xs with
  | nil => exact .nil
  | cons x xs ih => exact insertSorted_pairwise trans total x _ ih

theorem insertSorted_stable {r : α → α → Prop} {x : α} {xs : List α} (first : ∀ y ∈ xs, r x y)
    (stable : xs.Pairwise fun a b => le b a → r a b) :
    (insertSorted le x xs).Pairwise fun a b => le b a → r a b := by
  induction xs with
  | nil => simp [insertSorted]
  | cons y ys ih =>
      have ⟨head, rest⟩ := List.pairwise_cons.mp stable
      unfold insertSorted
      split
      case isTrue => exact List.pairwise_cons.mpr ⟨fun a member _ => first a member, stable⟩
      case isFalse above =>
        have later := ih (fun a member => first a (List.mem_cons_of_mem y member)) rest
        refine List.pairwise_cons.mpr ⟨fun a member tied => ?_, later⟩
        rcases List.mem_cons.mp ((insertSorted_perm x ys).mem_iff.mp member) with same | inside
        · exact absurd (same ▸ tied) above
        · exact head a inside tied

/-- What relates any two elements in the order they came in still relates those that compare equal
after sorting. -/
theorem sort_stable {r : α → α → Prop} {xs : List α} (given : xs.Pairwise r) :
    (sort le xs).Pairwise fun a b => le b a → r a b := by
  induction xs with
  | nil => exact .nil
  | cons x xs ih =>
      have ⟨first, rest⟩ := List.pairwise_cons.mp given
      exact insertSorted_stable (fun y member => first y (mem_sort.mp member)) (ih rest)

theorem sort_eq_self {xs : List α} (sorted : xs.Pairwise (fun a b => le a b)) :
    sort le xs = xs := by
  induction xs with
  | nil => rfl
  | cons x xs ih =>
      have ⟨first, rest⟩ := List.pairwise_cons.mp sorted
      rw [sort_cons, ih rest]
      cases xs with
      | nil => rfl
      | cons y ys => simp [insertSorted, first y]

end Deadwood
