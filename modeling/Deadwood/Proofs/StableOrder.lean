import Mathlib.Data.List.Sort
import Mathlib.Data.Prod.Lex
import Mathlib.Data.Set.List
import Mathlib.Data.String.Basic
import Deadwood.Proofs.Likeness

namespace Deadwood

/-!
Edges as they are handed in, put in the order of a listing. Main statement: the first edge with an end
that is no location is refused; if there is none, the first edge of each group of copies is listed and
no other, by ascending keys, with ties in the order they came in. There is only one such list, and to
order it once more changes nothing.
-/

variable {ν : Type}

def Endpoint.isLocation : Endpoint → Bool
  | number _ => false
  | location _ => true

namespace Edge

section HandedIn

variable {e : Edge Endpoint} {given : List (Edge Endpoint)}

/-- An end of the edge is no location. -/
def isLoose (e : Edge Endpoint) : Bool := !e.source.isLocation || !e.target.isLocation

/-- An edge between locations, as it is handed in. -/
def handedIn (e : Edge Location) : Edge Endpoint :=
  { e with source := .location e.source, target := .location e.target }

theorem located_handedIn (e : Edge Location) : e.handedIn.located = .ok e := rfl

theorem exists_handedIn (tied : e.isLoose = false) : ∃ f, handedIn f = e := by
  obtain ⟨id, source, target, statement⟩ := e
  cases source with
  | number n => simp [isLoose, Endpoint.isLocation] at tied
  | location l =>
      cases target with
      | number n => simp [isLoose, Endpoint.isLocation] at tied
      | location m => exact ⟨⟨id, l, m, statement⟩, rfl⟩

theorem located_of_isLoose (loose : e.isLoose = true) : e.located = .error ⟨e⟩ := by
  obtain ⟨id, source, target, statement⟩ := e
  cases source with
  | number n => rfl
  | location l =>
      cases target with
      | number n => rfl
      | location m => cases loose

theorem locatedAll_handedIn (placed : List (Edge Location)) :
    locatedAll (placed.map handedIn) = .ok placed := by
  induction placed with
  | nil => rfl
  | cons first rest ih =>
      simp only [List.map_cons, locatedAll, located_handedIn, ih, bind, Except.bind, pure,
        Except.pure]

theorem locatedAll_of_find? (found : given.find? isLoose = some e) :
    locatedAll given = .error ⟨e⟩ := by
  induction given with
  | nil => cases found
  | cons first rest ih =>
      cases loose : first.isLoose with
      | true =>
          rw [List.find?_cons_of_pos loose, Option.some.injEq] at found
          subst found
          simp only [locatedAll, located_of_isLoose loose, bind, Except.bind]
      | false =>
          rw [List.find?_cons_of_neg (by simp [loose])] at found
          obtain ⟨f, rfl⟩ := exists_handedIn loose
          simp only [locatedAll, located_handedIn, ih found, bind, Except.bind]

theorem exists_placed (tied : ∀ e ∈ given, e.isLoose = false) :
    ∃ placed : List (Edge Location), placed.map handedIn = given := by
  have inRange : given ∈ Set.range (List.map handedIn) := by
    rw [Set.range_list_map]
    exact fun e member => exists_handedIn (tied e member)
  exact inRange

theorem order_of_find? (found : given.find? isLoose = some e) : order given = .error ⟨e⟩ := by
  simp only [order, locatedAll_of_find? found, bind, Except.bind]

theorem order_handedIn (placed : List (Edge Location)) :
    order (placed.map handedIn) = .ok (arrange placed) := by
  simp only [order, locatedAll_handedIn, bind, Except.bind, pure, Except.pure]

/-- Either there is a first loose edge, and it is refused, or all edges are between locations. -/
theorem order_cases (given : List (Edge Endpoint)) :
    (∃ e, given.find? isLoose = some e ∧ order given = .error ⟨e⟩) ∨
      ((∀ e ∈ given, e.isLoose = false) ∧
        ∃ placed, placed.map handedIn = given ∧ order given = .ok (arrange placed)) := by
  cases found : given.find? isLoose with
  | some e => exact .inl ⟨e, rfl, order_of_find? found⟩
  | none =>
      have tied : ∀ e ∈ given, e.isLoose = false := fun e member =>
        Bool.eq_false_iff.mpr (List.find?_eq_none.mp found e member)
      obtain ⟨placed, rfl⟩ := exists_placed tied
      exact .inr ⟨tied, placed, rfl, order_handedIn placed⟩

end HandedIn

section Firsts

variable [DecidableEq ν]

/-- Of the edges with the same ends and equal statements the first stays and no other. -/
theorem filter_withoutCopies (edges : List (Edge ν)) (t : ν × ν × Statement) :
    (withoutCopies edges).filter (·.parts = t) = (edges.find? (·.parts = t)).toList := by
  induction edges with
  | nil => rfl
  | cons first rest ih =>
      rw [withoutCopies]
      by_cases same : first.parts = t
      -- Whatever else has these parts was dropped as a copy of the head.
      · have others : ((withoutCopies rest).filter (!first.isCopy ·)).filter (·.parts = t) = [] := by
          refine List.filter_eq_nil_iff.mpr fun e member alike => ?_
          have apart := (List.mem_filter.mp member).2
          have copy : first.isCopy e = true :=
            isCopy_iff_parts.mpr (same.trans (of_decide_eq_true alike).symm)
          simp [copy] at apart
        rw [List.filter_cons_of_pos (by simpa using same), others,
          List.find?_cons_of_pos (by simpa using same)]
        rfl
      -- What was dropped as a copy of the head has other parts.
      · have others : ((withoutCopies rest).filter (!first.isCopy ·)).filter (·.parts = t) =
            (withoutCopies rest).filter (·.parts = t) := by
          rw [List.filter_filter]
          refine List.filter_congr fun e _ => ?_
          by_cases alike : e.parts = t
          · have apart : ¬ first.isCopy e = true := fun copy =>
              same ((isCopy_iff_parts.mp copy).trans alike)
            simp [alike, apart]
          · simp [alike]
        rw [List.filter_cons_of_neg (by simpa using same), others, ih,
          List.find?_cons_of_neg (by simpa using same)]

/-- What is kept stays in the order of the places where it was first met. Being a sublist would not
say so: the same edge can come again behind another one. -/
theorem withoutCopies_pairwise_idxOf (edges : List (Edge ν)) :
    (withoutCopies edges).Pairwise fun e f => edges.idxOf e < edges.idxOf f := by
  induction edges with
  | nil => exact .nil
  | cons first rest ih =>
      have other : ∀ e ∈ (withoutCopies rest).filter (!first.isCopy ·), first ≠ e := by
        intro e member same
        simp [same, e.isCopy_refl] at member
      refine List.pairwise_cons.mpr ⟨fun e member => ?_, ?_⟩
      · rw [List.idxOf_cons_self, List.idxOf_cons_ne _ (other e member)]
        exact Nat.succ_pos _
      · refine (ih.filter _).imp_of_mem fun {e f} left right before => ?_
        rw [List.idxOf_cons_ne _ (other e left), List.idxOf_cons_ne _ (other f right)]
        exact Nat.succ_lt_succ before

variable [Node ν]

theorem filter_arrange (edges : List (Edge ν)) (t : ν × ν × Statement) :
    (arrange edges).filter (·.parts = t) = (edges.find? (·.parts = t)).toList := by
  have kept : ((arrange edges).filter (·.parts = t)).Perm (edges.find? (·.parts = t)).toList := by
    rw [← filter_withoutCopies]
    exact (sort_perm _).filter _
  cases found : edges.find? (·.parts = t) with
  | none =>
      rw [found] at kept
      exact List.perm_nil.mp kept
  | some e =>
      rw [found] at kept
      exact List.perm_singleton.mp kept

theorem arrange_arrange (edges : List (Edge ν)) : arrange (arrange edges) = arrange edges :=
  arrange_eq_self (sort_keyLe_pairwise _) (nodup_arrange edges) (distinct_arrange edges)

end Firsts

variable {e f : Edge Location} {edges arranged others : List (Edge Location)}

/-- The source, then the target, then the text of the statement. -/
def listingKey (e : Edge Location) : Location ×ₗ Location ×ₗ String :=
  toLex (e.source, toLex (e.target, e.statement.text))

theorem keyLe_iff_listingKey_le : e.keyLe f = true ↔ e.listingKey ≤ f.listingKey := by
  have text : (compare e.statement.text f.statement.text).isLE = true ↔
      e.statement.text ≤ f.statement.text := by
    rw [Ordering.isLE_iff_ne_gt]
    exact compare_le_iff_le
  rw [listingKey, listingKey, Prod.Lex.toLex_le_toLex, Prod.Lex.toLex_le_toLex, ← text]
  simp only [keyLe, compareKey, compareLex, compareOn, Ordering.isLE_then_iff_or,
    Std.LawfulEqOrd.compare_eq_iff_eq]
  exact Iff.rfl

theorem keyLe_of_listingKey_eq (same : e.listingKey = f.listingKey) : f.keyLe e = true := by
  rw [keyLe_iff_listingKey_le, same, ← keyLe_iff_listingKey_le]
  exact or_self_iff.mp (keyLe_total f f)

theorem listingKey_eq_of_le (first : e.listingKey ≤ f.listingKey)
    (second : f.listingKey ≤ e.listingKey) : e.listingKey = f.listingKey := by
  rw [← keyLe_iff_listingKey_le] at first second
  have equal : keyOrder e.key f.key = .eq := Std.OrientedCmp.isLE_antisymm first second
  have keys : e.key = f.key := Std.LawfulEqCmp.eq_of_compare equal
  simp only [key, Prod.mk.injEq] at keys
  rw [listingKey, listingKey, keys.1, keys.2.1, keys.2.2]

/-- The key of the one edge is not above that of the other, and if the keys are equal, it came first
among the edges given. -/
structure Precedes (edges : List (Edge Location)) (e f : Edge Location) : Prop where
  key_le : e.listingKey ≤ f.listingKey
  came_first : e.listingKey = f.listingKey → edges.idxOf e < edges.idxOf f

instance : Std.Irrefl (Precedes edges) :=
  ⟨fun _ precedes => Nat.lt_irrefl _ (precedes.came_first rfl)⟩

instance : Std.Antisymm (Precedes edges) where
  antisymm e f left right := by
    have same := listingKey_eq_of_le left.key_le right.key_le
    exact absurd (left.came_first same) (Nat.lt_asymm (right.came_first same.symm))

/-- For each pair of ends and each statement, the first edge given with these is listed and no other,
and the list is in order. -/
structure ListsFirsts (edges arranged : List (Edge Location)) : Prop where
  firsts : ∀ t, arranged.filter (·.parts = t) = (edges.find? (·.parts = t)).toList
  ordered : arranged.Pairwise (Precedes edges)

theorem ListsFirsts.mem_iff (lists : ListsFirsts edges arranged) :
    e ∈ arranged ↔ edges.find? (·.parts = e.parts) = some e := by
  have listed : e ∈ arranged ↔ e ∈ arranged.filter (·.parts = e.parts) := by simp
  rw [listed, lists.firsts, Option.mem_toList]

/-- There is one list of the firsts only. -/
theorem ListsFirsts.eq (left : ListsFirsts edges arranged) (right : ListsFirsts edges others) :
    arranged = others :=
  left.ordered.eq_of_mem_iff right.ordered fun _ => left.mem_iff.trans right.mem_iff.symm

theorem listsFirsts_arrange (edges : List (Edge Location)) : ListsFirsts edges (arrange edges) where
  firsts := filter_arrange edges
  ordered := by
    have ascending : (arrange edges).Pairwise fun e f => e.keyLe f = true := sort_keyLe_pairwise _
    have stable : (arrange edges).Pairwise fun e f =>
        f.keyLe e = true → edges.idxOf e < edges.idxOf f :=
      sort_stable (withoutCopies_pairwise_idxOf edges)
    refine (ascending.and stable).imp fun ⟨below, first⟩ => ?_
    exact ⟨keyLe_iff_listingKey_le.mp below, fun same => first (keyLe_of_listingKey_eq same)⟩

/-- Ordering fails exactly if an edge has an end that is no location, and names the first such edge.
Otherwise it lists the first edge of each group of copies and no other, by source, target and text of
the statement; where these are equal, edges stay in the order in which they were given. No other list
does so, and the list is its own order. -/
theorem order_lists_first_copies (given : List (Edge Endpoint)) :
    ((∃ refused, order given = .error refused) ↔ ∃ e ∈ given, e.isLoose = true) ∧
    (∀ refused, order given = .error refused → given.find? isLoose = some refused.edge) ∧
    ((∀ e ∈ given, e.isLoose = false) →
      ∃ placed arranged, placed.map handedIn = given ∧ order given = .ok arranged ∧
        ListsFirsts placed arranged ∧ (∀ others, ListsFirsts placed others → others = arranged) ∧
        order (arranged.map handedIn) = .ok arranged) := by
  rcases order_cases given with ⟨e, found, refusal⟩ | ⟨tied, placed, same, ordered⟩
  · have member := List.mem_of_find?_eq_some found
    have loose : e.isLoose = true := List.find?_some found
    refine ⟨iff_of_true ⟨_, refusal⟩ ⟨e, member, loose⟩, fun refused also => ?_, fun tied => ?_⟩
    · cases refusal.symm.trans also
      exact found
    · exact absurd loose (by simp [tied e member])
  · refine ⟨iff_of_false ?_ ?_, fun refused refusal => ?_, fun _ => ?_⟩
    · intro failed
      obtain ⟨refused, refusal⟩ := failed
      cases ordered.symm.trans refusal
    · intro listed
      obtain ⟨e, member, loose⟩ := listed
      simp [tied e member] at loose
    · cases ordered.symm.trans refusal
    · have lists := listsFirsts_arrange placed
      refine ⟨placed, arrange placed, same, ordered, lists, fun _ also => also.eq lists, ?_⟩
      rw [order_handedIn, arrange_arrange]

/-- Among others, three calls that a listing does not tell apart. The last of them is a copy of the
first, with the names in another order. -/
def doubledCalls : List (Edge Location) :=
  [⟨0, ⟨0x1001, 0⟩, ⟨0x1002, 0⟩, .skip⟩,
   ⟨1, ⟨0x1000, 0⟩, ⟨0x1001, 0⟩, .call (.ofList ["ecx", "ebx"])⟩,
   ⟨2, ⟨0x1000, 0⟩, ⟨0x1001, 0⟩, .call (.ofList ["eax"])⟩,
   ⟨3, ⟨0x1000, 0⟩, ⟨0x1001, 0⟩, .call (.ofList ["ebx", "ecx"])⟩,
   ⟨4, ⟨0x1000, 0⟩, ⟨0x1001, 0⟩, .assume Statement.always .ordinary⟩]

/-- An edge that leads to a number, and one that joins two numbers. -/
def looseEdges : List (Edge Endpoint) :=
  [⟨5, .location ⟨0x1002, 0⟩, .number 0x1003, .skip⟩, ⟨6, .number 0x1003, .number 0x1004, .halt⟩]

theorem doubledCalls_listed :
    (∃ arranged, order (doubledCalls.map handedIn) = .ok arranged ∧
      arranged.map id = [4, 1, 2, 0] ∧ ListsFirsts doubledCalls arranged ∧
      order (arranged.map handedIn) = .ok arranged) ∧
    ∃ refused, order (doubledCalls.map handedIn ++ looseEdges) = .error refused ∧
      refused.edge.id = 5 := by
  constructor
  · obtain ⟨_, _, listed⟩ := order_lists_first_copies (doubledCalls.map handedIn)
    obtain ⟨placed, arranged, same, ordered, lists, _, again⟩ := listed (by decide +kernel)
    have itself : placed = doubledCalls := by
      have both := congrArg locatedAll same
      rw [locatedAll_handedIn, locatedAll_handedIn] at both
      exact Except.ok.inj both
    have ids : (order (doubledCalls.map handedIn)).toOption.map (·.map id) = some [4, 1, 2, 0] := by
      decide +kernel
    refine ⟨arranged, ordered, ?_, itself ▸ lists, again⟩
    simpa [ordered, Except.toOption] using ids
  · obtain ⟨fails, names, _⟩ := order_lists_first_copies (doubledCalls.map handedIn ++ looseEdges)
    obtain ⟨refused, refusal⟩ := fails.mpr (by decide +kernel)
    have found : ((doubledCalls.map handedIn ++ looseEdges).find? isLoose).map id = some 5 := by
      decide +kernel
    rw [names refused refusal, Option.map_some, Option.some.injEq] at found
    exact ⟨refused, refusal, found⟩

end Edge

end Deadwood
