import Deadwood.Data.Sort

namespace Deadwood

/-!
Finite maps that keep their keys in the order in which they came. A key that is given another value
keeps its place; one that is removed and comes back goes to the end.
-/

structure OrderedMap (κ β : Type) where
  entries : List (κ × β)
  distinct : (entries.map Prod.fst).Nodup

namespace OrderedMap

variable {κ β : Type}

def empty : OrderedMap κ β := ⟨[], List.nodup_nil⟩

instance : EmptyCollection (OrderedMap κ β) := ⟨empty⟩

instance : Inhabited (OrderedMap κ β) := ⟨∅⟩

def keys (m : OrderedMap κ β) : List κ := m.entries.map Prod.fst

def ofKeys (ks : List κ) (distinct : ks.Nodup) (value : κ → β) : OrderedMap κ β where
  entries := ks.map fun k => (k, value k)
  distinct := by simpa [Function.comp_def] using distinct

def sorted [Ord κ] (m : OrderedMap κ β) : List (κ × β) :=
  sort (fun a b => (compare a.1 b.1).isLE) m.entries

variable [DecidableEq κ]

def find? (k : κ) : List (κ × β) → Option β
  | [] => none
  | entry :: rest => if entry.1 = k then some entry.2 else find? k rest

def get? (m : OrderedMap κ β) (k : κ) : Option β := find? k m.entries

/-- Gives a key a value, in its place or else at the end. -/
def put (k : κ) (b : β) : List (κ × β) → List (κ × β)
  | [] => [(k, b)]
  | entry :: rest => if entry.1 = k then (k, b) :: rest else entry :: put k b rest

theorem mem_keys_put {k j : κ} {b : β} {entries : List (κ × β)} :
    j ∈ (put k b entries).map Prod.fst ↔ j = k ∨ j ∈ entries.map Prod.fst := by
  induction entries with
  | nil => simp [put]
  | cons entry rest ih =>
      unfold put
      split
      case isTrue same => simp [same]
      case isFalse =>
        rw [List.map_cons, List.mem_cons, ih, List.map_cons, List.mem_cons]
        exact or_left_comm

theorem put_nodup {k : κ} {b : β} {entries : List (κ × β)}
    (distinct : (entries.map Prod.fst).Nodup) : ((put k b entries).map Prod.fst).Nodup := by
  induction entries with
  | nil => simp [put]
  | cons entry rest ih =>
      have ⟨first, others⟩ := List.nodup_cons.mp distinct
      unfold put
      split
      case isTrue same => exact List.nodup_cons.mpr ⟨same ▸ first, others⟩
      case isFalse different =>
        refine List.nodup_cons.mpr ⟨fun member => ?_, ih others⟩
        rcases mem_keys_put.mp member with same | old
        · exact different same
        · exact first old

def insert (m : OrderedMap κ β) (k : κ) (b : β) : OrderedMap κ β :=
  ⟨put k b m.entries, put_nodup m.distinct⟩

def erase (m : OrderedMap κ β) (k : κ) : OrderedMap κ β where
  entries := m.entries.filter (·.1 ≠ k)
  distinct := (List.filter_sublist.map Prod.fst).nodup m.distinct

theorem find?_put (k j : κ) (b : β) (entries : List (κ × β)) :
    find? j (put k b entries) = if j = k then some b else find? j entries := by
  induction entries with
  | nil => simp [put, find?, eq_comm]
  | cons entry rest ih => grind [put, find?]

theorem find?_filter (k j : κ) (entries : List (κ × β)) :
    find? j (entries.filter (·.1 ≠ k)) = if j = k then none else find? j entries := by
  induction entries with
  | nil => simp [find?]
  | cons entry rest ih => grind [find?]

theorem find?_map (value : κ → β) (k : κ) (ks : List κ) :
    find? k (ks.map fun j => (j, value j)) = if k ∈ ks then some (value k) else none := by
  induction ks with
  | nil => rfl
  | cons first rest ih => grind [find?]

theorem mem_keys_iff_find? {k : κ} {entries : List (κ × β)} :
    k ∈ entries.map Prod.fst ↔ (find? k entries).isSome := by
  induction entries with
  | nil => simp [find?]
  | cons entry rest ih => grind [find?]

@[simp] theorem get?_empty (k : κ) : (∅ : OrderedMap κ β).get? k = none := rfl

@[simp] theorem get?_ofKeys {ks : List κ} {distinct : ks.Nodup} {value : κ → β} (k : κ) :
    (ofKeys ks distinct value).get? k = if k ∈ ks then some (value k) else none :=
  find?_map value k ks

theorem get?_insert (m : OrderedMap κ β) (k j : κ) (b : β) :
    (m.insert k b).get? j = if j = k then some b else m.get? j := find?_put k j b m.entries

theorem get?_erase (m : OrderedMap κ β) (k j : κ) :
    (m.erase k).get? j = if j = k then none else m.get? j := find?_filter k j m.entries

theorem mem_keys {m : OrderedMap κ β} {k : κ} : k ∈ m.keys ↔ (m.get? k).isSome :=
  mem_keys_iff_find?

end OrderedMap

end Deadwood
