import Mathlib.Data.List.Pairwise
import Mathlib.Data.List.Sort
import Deadwood.Proofs.RangeMembership

namespace Deadwood

/-!
Stored ranges as a normal form. Ranges with gaps between them are the maximal intervals of the set of
addresses that they hold, and so the set determines them. Main statement: pairs are stored alike
exactly if they hold the same addresses.
-/

namespace AddressRange

variable {r q : AddressRange} {ranges others : List AddressRange} {address : Int}

theorem eq_of_ends (start : r.start = q.start) (stop : r.stop = q.stop) : r = q := by
  cases r
  cases q
  cases start
  cases stop
  rfl

/-- The range lies in the set, and with the address before it or behind it it would not. -/
structure IsMaximal (set : Int → Prop) (r : AddressRange) : Prop where
  inside : ∀ address, r.Holds address → set address
  start_bound : ¬ set (r.start - 1)
  stop_bound : ¬ set r.stop

theorem Separated.apart (separated : Separated ranges) (first : r ∈ ranges) (second : q ∈ ranges)
    (different : r ≠ q) : r.stop < q.start ∨ q.stop < r.start := by
  have symmetric : Std.Symm fun r q : AddressRange => r.stop < q.start ∨ q.stop < r.start :=
    ⟨fun _ _ => Or.symm⟩
  have either : ranges.Pairwise fun r q => r.stop < q.start ∨ q.stop < r.start :=
    separated.imp Or.inl
  exact either.forall first second different

/-- A range that reaches the one given, or touches it, is the same. -/
theorem Separated.eq_of_touches (separated : Separated ranges) (first : r ∈ ranges)
    (second : q ∈ ranges) (before : q.start ≤ r.stop) (behind : r.start ≤ q.stop) : r = q := by
  by_contra different
  rcases separated.apart first second different with gap | gap
  · omega
  · omega

theorem Separated.isMaximal (separated : Separated ranges) (member : r ∈ ranges) :
    IsMaximal (Spans ranges) r := by
  have nonempty := r.nonempty
  refine ⟨fun address holds => ⟨r, member, holds⟩, ?_, ?_⟩
  · rintro ⟨q, listed, starts, stops⟩
    have same := separated.eq_of_touches member listed (by omega) (by omega)
    subst same
    omega
  · rintro ⟨q, listed, starts, stops⟩
    have same := separated.eq_of_touches member listed (by omega) (by omega)
    subst same
    omega

/-- The ranges of a separated list are the maximal intervals of the set it holds. -/
theorem Separated.mem_iff_isMaximal (separated : Separated ranges) :
    r ∈ ranges ↔ IsMaximal (Spans ranges) r := by
  refine ⟨separated.isMaximal, fun maximal => ?_⟩
  have nonempty := r.nonempty
  obtain ⟨q, listed, starts, stops⟩ := maximal.inside r.start ⟨by omega, nonempty⟩
  have other := separated.isMaximal listed
  have start : q.start = r.start := by
    by_contra different
    exact maximal.start_bound ⟨q, listed, by omega, by omega⟩
  have stop : q.stop = r.stop := by
    rcases Int.lt_trichotomy q.stop r.stop with shorter | same | longer
    · exact absurd (maximal.inside q.stop ⟨by omega, shorter⟩) other.stop_bound
    · exact same
    · exact absurd ⟨q, listed, by omega, longer⟩ maximal.stop_bound
  exact eq_of_ends start stop ▸ listed

theorem Separated.eq_of_spans_iff (left : Separated ranges) (right : Separated others)
    (same : ∀ address, Spans ranges address ↔ Spans others address) : ranges = others := by
  have irreflexive : Std.Irrefl fun r q : AddressRange => r.stop < q.start :=
    ⟨fun r below => by have nonempty := r.nonempty; omega⟩
  have antisymmetric : Std.Antisymm fun r q : AddressRange => r.stop < q.start :=
    ⟨fun r q below above => by
      have first := r.nonempty
      have second := q.nonempty
      omega⟩
  refine List.Pairwise.eq_of_mem_iff left right fun r => ?_
  rw [left.mem_iff_isMaximal, right.mem_iff_isMaximal, funext fun address => propext (same address)]

end AddressRange

namespace AddressRanges

open AddressRange (Spans Holds)

variable {ends : List (Int × Int)} {s t : AddressRanges} {address : Int}

/-- The stored ranges as pairs. -/
def pairs (s : AddressRanges) : List (Int × Int) := s.toList.map fun r => (r.start, r.stop)

theorem given_pairs : Given s.pairs address ↔ Spans s.toList address := by
  simp [Given, pairs, Spans, Holds]

theorem eq_of_spans_iff (same : ∀ address, Spans s.toList address ↔ Spans t.toList address) :
    s = t := by
  have lists := s.separated.eq_of_spans_iff t.separated same
  cases s
  cases t
  congr
  exact Array.toList_inj.mp lists

theorem spans_iff_given (accepted : ofEnds ends = .ok s) :
    Spans s.toList address ↔ Given ends address := by
  rcases ofEnds_cases ends with ⟨t, built, _, same⟩ | ⟨p, _, refused, _⟩
  · cases built.symm.trans accepted
    exact same address
  · cases refused.symm.trans accepted

theorem exists_of_nonempty (nonempty : ∀ p ∈ ends, p.1 < p.2) : ∃ s, ofEnds ends = .ok s := by
  rcases ofEnds_cases ends with ⟨s, built, _⟩ | ⟨p, listed, _, empty, _⟩
  · exact ⟨s, built⟩
  · exact absurd (nonempty p listed) (Int.not_lt.mpr empty)

theorem nonempty_of_mem_pairs {p : Int × Int} (member : p ∈ s.pairs) : p.1 < p.2 := by
  obtain ⟨r, _, rfl⟩ := List.mem_map.mp member
  exact r.nonempty

/-- Accepted pairs are stored as non-empty pairs in strictly ascending order with gaps between them.
Two lists of pairs are stored alike exactly if they hold the same addresses; so the stored pairs, in
any order, are stored as they are. -/
theorem stored_pairs_canonical (accepted : ofEnds ends = .ok s) :
    (∀ p ∈ s.pairs, p.1 < p.2) ∧
    s.pairs.Pairwise (fun p q => p.1 < q.1 ∧ p.2 < q.2 ∧ p.2 < q.1) ∧
    (∀ others t, ofEnds others = .ok t →
      (t.pairs = s.pairs ↔ ∀ address, Given others address ↔ Given ends address)) ∧
    ∀ shuffled, shuffled.Perm s.pairs → ofEnds shuffled = .ok s := by
  refine ⟨fun p => nonempty_of_mem_pairs, ?_, ?_, ?_⟩
  · refine List.pairwise_map.mpr (s.separated.imp fun {r q} gap => ?_)
    have first := r.nonempty
    have second := q.nonempty
    dsimp only
    omega
  · intro others t also
    constructor
    · intro same address
      rw [← spans_iff_given also, ← spans_iff_given accepted, ← given_pairs, ← given_pairs, same]
    · intro same
      have equal : t = s := eq_of_spans_iff fun address => by
        rw [spans_iff_given also, spans_iff_given accepted, same]
      rw [equal]
  · intro shuffled same
    obtain ⟨t, built⟩ := exists_of_nonempty fun p member =>
      nonempty_of_mem_pairs (same.mem_iff.mp member)
    have equal : t = s := eq_of_spans_iff fun address => by
      rw [spans_iff_given built, ← given_pairs]
      simp [Given, same.mem_iff]
    rw [built, equal]

/-- The same addresses as in the jumbled ranges, cut differently. -/
def tidier : List (Int × Int) := [(20, 25), (-3, 9), (24, 30)]

theorem jumbled_canonical :
    ∃ s, ofEnds jumbled = .ok s ∧ s.pairs = [(-3, 9), (20, 30)] ∧
      (∃ t, ofEnds tidier = .ok t ∧ t.pairs = s.pairs) ∧ ofEnds [(20, 30), (-3, 9)] = .ok s := by
  obtain ⟨s, built⟩ : ∃ s, ofEnds jumbled = .ok s := exists_of_nonempty (by decide)
  obtain ⟨t, also⟩ : ∃ t, ofEnds tidier = .ok t := exists_of_nonempty (by decide)
  obtain ⟨_, _, unique, rebuilt⟩ := stored_pairs_canonical built
  have stored : s.pairs = [(-3, 9), (20, 30)] := by
    have computed : (ofEnds jumbled).toOption.map AddressRanges.pairs = some [(-3, 9), (20, 30)] := by
      decide +kernel
    simpa [built, Except.toOption] using computed
  have same : ∀ address, Given tidier address ↔ Given jumbled address := by
    intro address
    simp only [Given, tidier, jumbled, List.exists_mem_cons_iff, List.not_mem_nil, false_and,
      exists_false, or_false]
    omega
  refine ⟨s, built, stored, ⟨t, also, (unique tidier t also).mpr same⟩, ?_⟩
  exact rebuilt _ (stored ▸ .swap _ _ _)

end AddressRanges

end Deadwood
