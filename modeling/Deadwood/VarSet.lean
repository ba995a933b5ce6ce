namespace Deadwood

/-!
Sets of variable ids as the bits of a number. What a set means depends on the universe that gave
out the ids; the operations here need none.
-/

structure VarSet where
  bits : Nat
deriving DecidableEq, Repr

namespace VarSet

def empty : VarSet := ⟨0⟩

instance : EmptyCollection VarSet := ⟨empty⟩

instance : Inhabited VarSet := ⟨∅⟩

def contains (s : VarSet) (id : Nat) : Bool := s.bits.testBit id

instance : Membership Nat VarSet where
  mem s id := s.contains id = true

instance (id : Nat) (s : VarSet) : Decidable (id ∈ s) :=
  inferInstanceAs (Decidable (s.contains id = true))

theorem mem_def {id : Nat} {s : VarSet} : id ∈ s ↔ s.bits.testBit id = true := Iff.rfl

def singleton (id : Nat) : VarSet := ⟨1 <<< id⟩

def union (s t : VarSet) : VarSet := ⟨s.bits ||| t.bits⟩

instance : Union VarSet := ⟨union⟩

/-- Clears from the first set the bits it shares with the second. -/
def diff (s t : VarSet) : VarSet := ⟨s.bits ^^^ (s.bits &&& t.bits)⟩

instance : SDiff VarSet := ⟨diff⟩

def isEmpty (s : VarSet) : Bool := s.bits = 0

def isSubset (s t : VarSet) : Bool := (s \ t).isEmpty

def ids (s : VarSet) : List Nat := (List.range (s.bits.log2 + 1)).filter s.contains

def size (s : VarSet) : Nat := s.ids.length

@[simp] theorem not_mem_empty (id : Nat) : id ∉ (∅ : VarSet) := by
  change ¬ Nat.testBit 0 id = true
  simp

@[simp] theorem mem_singleton {id other : Nat} : other ∈ singleton id ↔ other = id := by
  simp only [mem_def, singleton, Nat.one_shiftLeft, Nat.testBit_two_pow, decide_eq_true_eq]
  exact eq_comm

@[simp] theorem mem_union {id : Nat} {s t : VarSet} : id ∈ s ∪ t ↔ id ∈ s ∨ id ∈ t := by
  change (s.bits ||| t.bits).testBit id = true ↔ _
  simp [mem_def]

@[simp] theorem mem_diff {id : Nat} {s t : VarSet} : id ∈ s \ t ↔ id ∈ s ∧ id ∉ t := by
  change (s.bits ^^^ (s.bits &&& t.bits)).testBit id = true ↔ _
  rw [Nat.testBit_xor, Nat.testBit_and, mem_def, mem_def]
  cases s.bits.testBit id <;> cases t.bits.testBit id <;> simp

theorem ext {s t : VarSet} (same : ∀ id, id ∈ s ↔ id ∈ t) : s = t := by
  cases s
  cases t
  congr
  exact Nat.eq_of_testBit_eq fun id => Bool.eq_iff_iff.mpr (same id)

theorem isEmpty_iff {s : VarSet} : s.isEmpty = true ↔ ∀ id, id ∉ s := by
  constructor
  · intro zero id member
    simp_all [isEmpty, mem_def]
  · intro none
    have zero : s = ∅ := ext fun id => by simp [none id]
    simp [zero, isEmpty, EmptyCollection.emptyCollection, empty]

theorem isSubset_iff {s t : VarSet} : s.isSubset t = true ↔ ∀ id ∈ s, id ∈ t := by
  simp [isSubset, isEmpty_iff]

@[simp] theorem mem_ids {id : Nat} {s : VarSet} : id ∈ s.ids ↔ id ∈ s := by
  refine ⟨fun member => (List.mem_filter.mp member).2, fun member => ?_⟩
  refine List.mem_filter.mpr ⟨List.mem_range.mpr ?_, member⟩
  have reached := Nat.ge_two_pow_of_testBit member
  have positive : s.bits ≠ 0 := Nat.ne_of_gt (Nat.lt_of_lt_of_le (Nat.two_pow_pos id) reached)
  exact Nat.lt_succ_of_le ((Nat.le_log2 positive).mpr reached)

theorem ids_ascending (s : VarSet) : s.ids.Pairwise (· < ·) :=
  List.pairwise_lt_range.filter _

end VarSet

end Deadwood
