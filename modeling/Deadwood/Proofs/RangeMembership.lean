import Mathlib.Data.Prod.Lex
import Deadwood.AddressRanges

namespace Deadwood

/-!
Membership in ranges of addresses. Main statement: ranges are refused exactly if one of them is empty,
and the least empty one is named; else the bisection finds the addresses of the ranges that were given
and no others, however these overlap.
-/

namespace AddressRange

variable {r s : AddressRange} {later : List AddressRange} {address : Int}

def Holds (r : AddressRange) (address : Int) : Prop := r.start ≤ address ∧ address < r.stop

/-- One of the ranges holds the address. -/
def Spans (ranges : List AddressRange) (address : Int) : Prop := ∃ r ∈ ranges, r.Holds address

theorem spans_cons : Spans (r :: later) address ↔ r.Holds address ∨ Spans later address := by
  simp [Spans]

/-- Nothing lies between two ranges that touch or overlap. -/
theorem extend_holds (ordered : r.start ≤ s.start) (touches : s.start ≤ r.stop) :
    (r.extend s).Holds address ↔ r.Holds address ∨ s.Holds address := by
  have first := r.nonempty
  have second := s.nonempty
  simp only [Holds, extend]
  omega

theorem spans_absorb (ordered : (r :: later).Pairwise (fun a b => a.start ≤ b.start)) :
    Spans (r.absorb later) address ↔ Spans (r :: later) address := by
  fun_induction absorb r later with
  | case1 r => rfl
  | case2 r first later touches ih =>
      have before := (List.pairwise_cons.mp ordered).1 first List.mem_cons_self
      rw [ih (extend_pairwise ordered), spans_cons, extend_holds before touches, spans_cons,
        spans_cons, or_assoc]
  | case3 r first later apart ih =>
      rw [spans_cons, ih (List.pairwise_cons.mp ordered).2, ← spans_cons]

theorem spans_merge {ranges : List AddressRange}
    (ordered : ranges.Pairwise (fun a b => a.start ≤ b.start)) :
    Spans (merge ranges) address ↔ Spans ranges address := by
  cases ranges with
  | nil => rfl
  | cons r later => exact spans_absorb ordered

theorem ofEnds_eq_ok {p : Int × Int} (nonempty : p.1 < p.2) :
    ofEnds p = .ok ⟨p.1, p.2, nonempty⟩ := dif_pos nonempty

theorem ofEnds_eq_error {p : Int × Int} (empty : p.2 ≤ p.1) : ofEnds p = .error ⟨p.1, p.2⟩ :=
  dif_neg (Int.not_lt.mpr empty)

/-- Pairs are taken one after the other up to the first empty one. -/
theorem mapM_ofEnds_cases (ends : List (Int × Int)) :
    (∃ ranges, ends.mapM ofEnds = .ok ranges ∧ ∀ p ∈ ends, p.1 < p.2) ∨
      ∃ before p after, ends = before ++ p :: after ∧ p.2 ≤ p.1 ∧ (∀ q ∈ before, q.1 < q.2) ∧
        ends.mapM ofEnds = .error ⟨p.1, p.2⟩ := by
  induction ends with
  | nil => exact .inl ⟨[], rfl, by simp⟩
  | cons p ps ih =>
      by_cases nonempty : p.1 < p.2
      · have taken := ofEnds_eq_ok nonempty
        rcases ih with ⟨ranges, rest, fine⟩ | ⟨before, q, after, split, empty, fine, refused⟩
        · refine .inl ⟨⟨p.1, p.2, nonempty⟩ :: ranges, ?_, List.forall_mem_cons.mpr ⟨nonempty, fine⟩⟩
          rw [List.mapM_cons, taken, rest]
          rfl
        · refine .inr ⟨p :: before, q, after, by rw [split]; rfl, empty,
            List.forall_mem_cons.mpr ⟨nonempty, fine⟩, ?_⟩
          rw [List.mapM_cons, taken, refused]
          rfl
      · have empty : p.2 ≤ p.1 := Int.not_lt.mp nonempty
        refine .inr ⟨[], p, ps, rfl, empty, by simp, ?_⟩
        rw [List.mapM_cons, ofEnds_eq_error empty]
        rfl

end AddressRange

namespace AddressRanges

open AddressRange (Spans Holds)

variable {s : AddressRanges} {address : Int} {low high : Nat}

theorem stop_lt_start (s : AddressRanges) {i j : Nat} {r q : AddressRange} (earlier : i < j)
    (first : s.ranges[i]? = some r) (second : s.ranges[j]? = some q) : r.stop < q.start := by
  obtain ⟨within, rfl⟩ := Array.getElem?_eq_some_iff.mp first
  obtain ⟨inside, rfl⟩ := Array.getElem?_eq_some_iff.mp second
  exact List.pairwise_iff_getElem.mp s.separated i j within inside earlier

/-- What is known of a bisection between two positions: the ranges before the first one start in time,
and those from the second one on start too late. -/
structure Brackets (s : AddressRanges) (address : Int) (low high : Nat) : Prop where
  ordered : low ≤ high
  fits : high ≤ s.ranges.size
  before : ∀ i r, i < low → s.ranges[i]? = some r → r.start ≤ address
  behind : ∀ i r, high ≤ i → s.ranges[i]? = some r → address < r.start

namespace Brackets

variable {middle : Nat} {r : AddressRange}

theorem lower (brackets : s.Brackets address low high) (above : low ≤ middle)
    (found : s.ranges[middle]? = some r) (late : address < r.start) :
    s.Brackets address low middle := by
  have within := (Array.getElem?_eq_some_iff.mp found).1
  refine ⟨above, Nat.le_of_lt within, brackets.before, fun i q further listed => ?_⟩
  rcases Nat.eq_or_lt_of_le further with same | later
  · rw [← same, found, Option.some.injEq] at listed
    exact listed ▸ late
  · have gap := s.stop_lt_start later found listed
    have nonempty := r.nonempty
    omega

theorem upper (brackets : s.Brackets address low high) (below : middle < high)
    (found : s.ranges[middle]? = some r) (early : r.start ≤ address) :
    s.Brackets address (middle + 1) high := by
  refine ⟨below, brackets.fits, fun i q nearer listed => ?_, brackets.behind⟩
  rcases Nat.eq_or_lt_of_le (Nat.le_of_lt_succ nearer) with same | earlier
  · rw [same, found, Option.some.injEq] at listed
    exact listed ▸ early
  · have gap := s.stop_lt_start earlier listed found
    have nonempty := q.nonempty
    omega

/-- The bisection ends where no range is left between the two positions. -/
theorem rank (brackets : s.Brackets address low high) :
    s.Brackets address (rank s.ranges address low high) (rank s.ranges address low high) := by
  fun_induction AddressRanges.rank s.ranges address low high with
  | case1 low high room middle missing ih =>
      have fits := brackets.fits
      have beyond := Array.getElem?_eq_none_iff.mp missing
      omega
  | case2 low high room middle r found late ih =>
      exact ih (brackets.lower (by omega) found late)
  | case3 low high room middle r found early ih =>
      exact ih (brackets.upper (by omega) found (Int.not_lt.mp early))
  | case4 low high full =>
      have same : low = high := Nat.le_antisymm brackets.ordered (Nat.not_lt.mp full)
      subst same
      exact brackets

end Brackets

/-- Bisection finds exactly the addresses of the stored ranges. -/
theorem contains_iff (s : AddressRanges) (address : Int) :
    s.contains address = true ↔ Spans s.toList address := by
  have whole : s.Brackets address 0 s.ranges.size :=
    ⟨Nat.zero_le _, Nat.le_refl _, by simp, fun i r beyond found => by
      simp [Array.getElem?_eq_none beyond] at found⟩
  have brackets := whole.rank
  unfold contains
  cases ended : rank s.ranges address 0 s.ranges.size with
  | zero =>
      rw [ended] at brackets
      refine iff_of_false Bool.false_ne_true ?_
      rintro ⟨r, member, early, _⟩
      obtain ⟨i, found⟩ := List.mem_iff_getElem?.mp member
      have late := brackets.behind i r (Nat.zero_le i) (by simpa [toList] using found)
      omega
  | succ last =>
      rw [ended] at brackets
      have within : last < s.ranges.size := brackets.fits
      have here := Array.getElem?_eq_getElem within
      have early := brackets.before last _ (Nat.lt_succ_self last) here
      simp only [here, Option.any_some, decide_eq_true_eq]
      constructor
      · intro inTime
        exact ⟨s.ranges[last], Array.getElem_mem_toList within, early, inTime⟩
      · rintro ⟨r, member, starts, stops⟩
        obtain ⟨i, listed⟩ := List.mem_iff_getElem?.mp member
        have found : s.ranges[i]? = some r := by simpa [toList] using listed
        -- No later range starts in time, and earlier ones are over before the last one starts.
        rcases Nat.lt_trichotomy i last with earlier | same | later
        · have gap := s.stop_lt_start earlier found here
          omega
        · rw [same, here, Option.some.injEq] at found
          exact found ▸ stops
        · have late := brackets.behind i r later found
          omega

/-- One of the pairs has the address between its ends, the first of which counts. -/
def Given (ends : List (Int × Int)) (address : Int) : Prop :=
  ∃ p ∈ ends, p.1 ≤ address ∧ address < p.2

theorem sort_endsLe_pairwise (ends : List (Int × Int)) :
    (sort endsLe ends).Pairwise (fun p q => toLex p ≤ toLex q) := by
  have sorted := @sort_pairwise _ endsLe (by grind [endsLe]) (by grind [endsLe]) ends
  refine sorted.imp fun {p q} below => Prod.Lex.toLex_le_toLex.mpr ?_
  simpa [endsLe] using below

theorem ofEnds_of_error {ends : List (Int × Int)} {empty : EmptyRange}
    (refused : (sort endsLe ends).mapM AddressRange.ofEnds = .error empty) :
    ofEnds ends = .error empty := by
  unfold ofEnds
  split
  case h_1 other found =>
    cases refused.symm.trans found
    rfl
  case h_2 ranges found =>
    cases refused.symm.trans found

/-- Pairs that are accepted are stored as ranges that hold the same addresses. -/
theorem ofEnds_of_ok {ends : List (Int × Int)} {ranges : List AddressRange}
    (accepted : (sort endsLe ends).mapM AddressRange.ofEnds = .ok ranges) :
    ∃ s, ofEnds ends = .ok s ∧ ∀ address, Spans s.toList address ↔ Given ends address := by
  obtain ⟨pairs, ordered⟩ := mapM_ofEnds_pairwise (sort_endsLe ends) accepted
  refine ⟨⟨(AddressRange.merge ranges).toArray, AddressRange.merge_separated ordered⟩, ?_, ?_⟩
  · unfold ofEnds
    split
    case h_1 empty found =>
      cases accepted.symm.trans found
    case h_2 others found =>
      cases accepted.symm.trans found
      rfl
  · intro address
    have given : Given ends address ↔ Given (sort endsLe ends) address := by simp [Given]
    rw [toList, AddressRange.spans_merge ordered, given, ← pairs]
    simp [Given, Spans, Holds]

/-- What becomes of any pairs: either none is empty and the ranges hold what was given, or the least
empty pair is refused. -/
theorem ofEnds_cases (ends : List (Int × Int)) :
    (∃ s, ofEnds ends = .ok s ∧ (∀ p ∈ ends, p.1 < p.2) ∧
        ∀ address, Spans s.toList address ↔ Given ends address) ∨
      ∃ p ∈ ends, ofEnds ends = .error ⟨p.1, p.2⟩ ∧ p.2 ≤ p.1 ∧
        ∀ q ∈ ends, q.2 ≤ q.1 → toLex p ≤ toLex q := by
  rcases AddressRange.mapM_ofEnds_cases (sort endsLe ends) with
    ⟨ranges, accepted, nonempty⟩ | ⟨before, p, after, split, empty, nonempty, refused⟩
  · obtain ⟨s, built, same⟩ := ofEnds_of_ok accepted
    exact .inl ⟨s, built, fun p member => nonempty p (mem_sort.mpr member), same⟩
  · have sorted := sort_endsLe_pairwise ends
    have listed (q : Int × Int) : q ∈ ends ↔ q ∈ before ++ p :: after := by rw [← split, mem_sort]
    rw [split] at sorted
    have ⟨_, fromHere, _⟩ := List.pairwise_append.mp sorted
    refine .inr ⟨p, (listed p).mpr (by simp), ofEnds_of_error refused, empty, fun q member bad => ?_⟩
    rcases List.mem_append.mp ((listed q).mp member) with earlier | later
    · have fine := nonempty q earlier
      omega
    · rcases List.mem_cons.mp later with same | rest
      · exact same ▸ le_refl _
      · exact (List.pairwise_cons.mp fromHere).1 q rest

/-- Pairs are refused exactly if one of them is empty, and the message shows the least empty one. From
any others, whatever their order and however they overlap, bisection tells the addresses that lie in
one of them. -/
theorem contains_exactly_given (ends : List (Int × Int)) :
    ((∃ empty, ofEnds ends = .error empty) ↔ ∃ p ∈ ends, p.2 ≤ p.1) ∧
    (∀ empty, ofEnds ends = .error empty → ∃ p ∈ ends, p.2 ≤ p.1 ∧
      (∀ q ∈ ends, q.2 ≤ q.1 → toLex p ≤ toLex q) ∧ empty = ⟨p.1, p.2⟩ ∧
      empty.message = "Empty address range " ++ rangeText p.1 p.2) ∧
    ∀ s, ofEnds ends = .ok s → ∀ address,
      s.contains address = true ↔ ∃ p ∈ ends, p.1 ≤ address ∧ address < p.2 := by
  rcases ofEnds_cases ends with ⟨s, built, nonempty, same⟩ | ⟨p, listed, refused, empty, least⟩
  · refine ⟨iff_of_false (by simp [built]) ?_, by simp [built], ?_⟩
    · rintro ⟨p, member, bad⟩
      exact Int.not_lt.mpr bad (nonempty p member)
    · intro t found address
      cases built.symm.trans found
      exact (s.contains_iff address).trans (same address)
  · refine ⟨iff_of_true ⟨_, refused⟩ ⟨p, listed, empty⟩, ?_, ?_⟩
    · intro other found
      have same : other = ⟨p.1, p.2⟩ := Except.error.inj (found.symm.trans refused)
      exact ⟨p, listed, empty, least, same, same ▸ rfl⟩
    · intro s found
      cases refused.symm.trans found

/-- Ranges out of order that overlap, lie inside one another, touch and repeat. -/
def jumbled : List (Int × Int) := [(5, 9), (-3, 2), (0, 1), (2, 5), (-3, 2), (20, 30)]

theorem jumbled_contains_exactly :
    (∃ s, ofEnds jumbled = .ok s ∧ s.contains 8 = true ∧ s.contains 9 = false) ∧
      ofEnds ((7, 2) :: (4, 4) :: jumbled) = .error ⟨4, 4⟩ := by
  obtain ⟨refusedIff, _, contains⟩ := contains_exactly_given jumbled
  have fine : ¬ ∃ empty, ofEnds jumbled = .error empty := refusedIff.not.mpr (by decide)
  constructor
  · cases built : ofEnds jumbled with
    | error empty => exact absurd ⟨empty, built⟩ fine
    | ok s =>
        have outside : ¬ s.contains 9 = true := (contains s built 9).not.mpr (by decide)
        exact ⟨s, rfl, (contains s built 8).mpr (by decide), Bool.eq_false_iff.mpr outside⟩
  · obtain ⟨refusedIff, least, _⟩ := contains_exactly_given ((7, 2) :: (4, 4) :: jumbled)
    obtain ⟨empty, refused⟩ := refusedIff.mpr (by decide)
    obtain ⟨p, listed, bad, first, rfl, _⟩ := least empty refused
    have only : ∀ q ∈ (7, 2) :: (4, 4) :: jumbled, q.2 ≤ q.1 → q = (7, 2) ∨ q = (4, 4) := by decide
    have before := Prod.Lex.toLex_le_toLex.mp (first (4, 4) (by decide) (by decide))
    rcases only p listed bad with rfl | rfl
    · exact absurd before (by decide)
    · exact refused

end AddressRanges

end Deadwood
