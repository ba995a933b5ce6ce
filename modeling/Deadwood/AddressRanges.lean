import Deadwood.Data.Sort
import Deadwood.Text.Hex

namespace Deadwood

/-!
Sets of addresses given as half-open ranges. Ranges that overlap or touch are merged, so the stored
ranges have gaps between them and a bisection over their starts decides membership.
-/

/-- The addresses from `start` up to but not including `stop`; there is at least one. -/
structure AddressRange where
  start : Int
  stop : Int
  nonempty : start < stop
deriving DecidableEq

structure EmptyRange where
  start : Int
  stop : Int
deriving DecidableEq

def rangeText (start stop : Int) : String :=
  "[" ++ Text.hexMarked start ++ ", " ++ Text.hexMarked stop ++ ")"

def EmptyRange.message (r : EmptyRange) : String :=
  "Empty address range " ++ rangeText r.start r.stop

namespace AddressRange

def ofEnds (ends : Int × Int) : Except EmptyRange AddressRange :=
  if nonempty : ends.1 < ends.2 then .ok ⟨ends.1, ends.2, nonempty⟩
  else .error ⟨ends.1, ends.2⟩

def extend (r s : AddressRange) : AddressRange where
  start := r.start
  stop := max r.stop s.stop
  nonempty := Int.lt_of_lt_of_le r.nonempty (Int.le_max_left ..)

/-- Merges a range with those after it that begin before it ends or where it ends. -/
def absorb (r : AddressRange) : List AddressRange → List AddressRange
  | [] => [r]
  | s :: later => if s.start ≤ r.stop then (r.extend s).absorb later else r :: s.absorb later

def merge : List AddressRange → List AddressRange
  | [] => []
  | r :: later => r.absorb later

theorem extend_pairwise {r s : AddressRange} {later : List AddressRange}
    (ordered : (r :: s :: later).Pairwise (fun a b => a.start ≤ b.start)) :
    (r.extend s :: later).Pairwise (fun a b => a.start ≤ b.start) :=
  have ⟨first, rest⟩ := List.pairwise_cons.mp ordered
  List.pairwise_cons.mpr
    ⟨fun a member => first a (List.mem_cons_of_mem _ member), (List.pairwise_cons.mp rest).2⟩

theorem start_le_of_mem_absorb {r s : AddressRange} {later : List AddressRange}
    (ordered : (r :: later).Pairwise (fun a b => a.start ≤ b.start))
    (member : s ∈ r.absorb later) : r.start ≤ s.start := by
  fun_induction absorb r later generalizing s with
  | case1 r => simp_all
  | case2 r first later touches ih =>
      exact ih (extend_pairwise ordered) member
  | case3 r first later apart ih =>
      rcases List.mem_cons.mp member with same | after
      · simp [same]
      · have := ih (List.pairwise_cons.mp ordered).2 after
        have := (List.pairwise_cons.mp ordered).1 first List.mem_cons_self
        omega

/-- Each range that is left ends before the next one starts. -/
def Separated (ranges : List AddressRange) : Prop :=
  ranges.Pairwise (fun r s => r.stop < s.start)

theorem absorb_separated {r : AddressRange} {later : List AddressRange}
    (ordered : (r :: later).Pairwise (fun a b => a.start ≤ b.start)) :
    Separated (r.absorb later) := by
  fun_induction absorb r later with
  | case1 r => simp [Separated]
  | case2 r first later touches ih => exact ih (extend_pairwise ordered)
  | case3 r first later apart ih =>
      have rest := (List.pairwise_cons.mp ordered).2
      refine List.pairwise_cons.mpr ⟨fun s member => ?_, ih rest⟩
      have := start_le_of_mem_absorb rest member
      omega

theorem merge_separated {ranges : List AddressRange}
    (ordered : ranges.Pairwise (fun a b => a.start ≤ b.start)) : Separated (merge ranges) := by
  cases ranges with
  | nil => exact .nil
  | cons r later => exact absorb_separated ordered

end AddressRange

/-- A set of addresses as ranges in ascending order with gaps between them. -/
structure AddressRanges where
  ranges : Array AddressRange
  separated : AddressRange.Separated ranges.toList

namespace AddressRanges

def endsLe (p q : Int × Int) : Bool := p.1 < q.1 || (p.1 = q.1 && p.2 ≤ q.2)

theorem sort_endsLe (ends : List (Int × Int)) :
    (sort endsLe ends).Pairwise (fun p q => p.1 ≤ q.1) := by
  have sorted := @sort_pairwise _ endsLe (by grind [endsLe]) (by grind [endsLe]) ends
  exact sorted.imp (by grind [endsLe])

theorem mapM_ofEnds_pairwise {ends : List (Int × Int)} {ranges : List AddressRange}
    (sorted : ends.Pairwise (fun p q => p.1 ≤ q.1))
    (accepted : ends.mapM AddressRange.ofEnds = .ok ranges) :
    ranges.map (fun r => (r.start, r.stop)) = ends ∧
      ranges.Pairwise (fun a b => a.start ≤ b.start) := by
  have starts : ranges.map (fun r => (r.start, r.stop)) = ends := by
    clear sorted
    induction ends generalizing ranges with
    | nil => cases accepted; rfl
    | cons p ps ih =>
        rw [List.mapM_cons] at accepted
        cases first : AddressRange.ofEnds p with
        | error e => simp [first, bind, Except.bind] at accepted
        | ok r =>
            cases others : ps.mapM AddressRange.ofEnds with
            | error e => simp [first, others, bind, Except.bind] at accepted
            | ok rs =>
                simp only [first, others, bind, Except.bind, pure, Except.pure,
                  Except.ok.injEq] at accepted
                subst accepted
                rw [List.map_cons, ih others]
                unfold AddressRange.ofEnds at first
                split at first <;> cases first
                rfl
  refine ⟨starts, ?_⟩
  rw [← starts, List.pairwise_map] at sorted
  exact sorted

/-- The set of all addresses in the given ranges. The first empty pair in ascending order is
refused. -/
def ofEnds (ends : List (Int × Int)) : Except EmptyRange AddressRanges :=
  match accepted : (sort endsLe ends).mapM AddressRange.ofEnds with
  | .error empty => .error empty
  | .ok ranges =>
      have ordered := (mapM_ofEnds_pairwise (sort_endsLe ends) accepted).2
      .ok ⟨(AddressRange.merge ranges).toArray, AddressRange.merge_separated ordered⟩

def empty : AddressRanges := ⟨#[], .nil⟩

instance : Inhabited AddressRanges := ⟨empty⟩

/-- Between `low` and `high`, the number of ranges that start at the address or before it. -/
def rank (ranges : Array AddressRange) (address : Int) (low high : Nat) : Nat :=
  if low < high then
    let middle := (low + high) / 2
    match ranges[middle]? with
    | none => rank ranges address low middle
    | some r =>
        if address < r.start then rank ranges address low middle
        else rank ranges address (middle + 1) high
  else low
termination_by high - low

/-- Only the last range that starts in time can hold the address. -/
def contains (s : AddressRanges) (address : Int) : Bool :=
  match rank s.ranges address 0 s.ranges.size with
  | 0 => false
  | before + 1 => (s.ranges[before]?).any (address < ·.stop)

def toList (s : AddressRanges) : List AddressRange := s.ranges.toList

def size (s : AddressRanges) : Nat := s.ranges.size

def describe (s : AddressRanges) : String :=
  "AddressRanges(" ++ ", ".intercalate (s.toList.map fun r => rangeText r.start r.stop) ++ ")"

end AddressRanges

end Deadwood
