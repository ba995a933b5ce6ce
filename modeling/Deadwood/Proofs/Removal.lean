import Deadwood.Elimination.Run
import Deadwood.Proofs.Contraction
import Deadwood.Proofs.Folding

namespace Deadwood.Pass

/-!
What removals leave of control flow. Every removal folds the graph, and so do any number of them, in
whatever order and over however many rounds they are made. Every edge then has an heir, unless it was
removed itself or through the edge that stood for it, and every location a representative.
-/

variable {p q : Pass} {id : Nat} {r : Removal} {removals : List Removal} {e f : Edge Location}

/-- The edge that stands for an edge after a removal. There is none for the edge removed; for an edge
that was merged it is the copy that was kept; any other edge stands for itself. -/
def Removal.heir (r : Removal) (e : Edge Location) : Option (Edge Location) :=
  if e.id = r.edge.id then none
  else if r.merged.any (·.id = e.id) then r.pass.graph.edges.find? (r.edge.past e).isCopy
  else r.pass.graph.find? e.id

def heir (removals : List Removal) (e : Edge Location) : Option (Edge Location) :=
  removals.foldlM (fun e r => r.heir e) e

/-- Where a way to a location leads after several removals. -/
def representative (removals : List Removal) (l : Location) : Location :=
  removals.foldl (fun l r => r.edge.bypass l) l

theorem contracted_of_remove? (removed : p.remove? id = some r) :
    r.edge ∈ p.graph.edges ∧ r.edge.id = id ∧ p.graph.outDegree r.edge.source ≤ 1 ∧
      p.graph.Contracted r.edge r.pass.graph r.merged := by
  obtain ⟨found, sole, merged, left⟩ := remove?_eq_some_iff.mp removed
  obtain ⟨_, member, same⟩ := find?_eq_some_iff.mp found
  refine ⟨member, same, sole, ?_⟩
  rw [left, merged]
  exact LiveGraph.contract_contracted (s := ⟨p.graph, p.live⟩) member sole

/-- Of the edges there were, only the one removed has nothing to stand for it, and the others are
stood for by an edge that goes past it. -/
theorem heir_cases (removed : p.remove? id = some r) (member : e ∈ p.graph.edges) :
    (e = r.edge ∧ r.heir e = none) ∨
      e.id ≠ r.edge.id ∧ ∃ f ∈ r.pass.graph.edges, r.heir e = some f ∧
        (r.edge.past e).isCopy f = true := by
  obtain ⟨inside, _, _, contracted⟩ := contracted_of_remove? removed
  by_cases same : e.id = r.edge.id
  · exact .inl ⟨p.graph.eq_of_id_eq member inside same, by simp [Removal.heir, same]⟩
  · refine .inr ⟨same, ?_⟩
    cases out : r.merged.any (·.id = e.id) with
    | true =>
        obtain ⟨m, listed, sameId⟩ := List.any_eq_true.mp out
        have absent : r.edge.past e ∉ r.pass.graph.edges := fun there =>
          (contracted.gone m listed).2 _ there (of_decide_eq_true sameId).symm
        obtain ⟨_, f, there, copy⟩ := (contracted.arrives e member same).resolve_left absent
        cases found : r.pass.graph.edges.find? (r.edge.past e).isCopy with
        | none => exact absurd copy (List.find?_eq_none.mp found f there)
        | some g =>
            refine ⟨g, List.mem_of_find?_eq_some found, ?_, List.find?_some found⟩
            simp [Removal.heir, same, out, found]
    | false =>
        rcases contracted.arrives e member same with there | ⟨listed, _⟩
        · refine ⟨_, there, ?_, Edge.isCopy_refl _⟩
          have found := Graph.find?_eq_some_iff.mpr ⟨there, rfl⟩
          simp only [Removal.heir, same, out, if_false, Bool.false_eq_true]
          exact found
        · have contains : r.merged.any (·.id = e.id) = true :=
            List.any_eq_true.mpr ⟨_, listed, decide_eq_true rfl⟩
          rw [out] at contains
          cases contains

theorem folding_of_remove? (removed : p.remove? id = some r) :
    Folding p.graph.edges r.pass.graph.edges r.edge.bypass r.heir (· = r.edge.id) := by
  obtain ⟨inside, _, sole, contracted⟩ := contracted_of_remove? removed
  have sources {e : Edge Location} (member : e ∈ p.graph.edges) (other : e.id ≠ r.edge.id) :
      e.source ≠ r.edge.source := fun leaves =>
    other (congrArg Edge.id (Graph.eq_of_sole inside sole member leaves))
  refine ⟨?_, ?_, ?_, ?_, ?_, ?_⟩
  · intro e member f found
    rcases heir_cases removed member with ⟨_, none⟩ | ⟨other, g, there, heir, copy⟩
    · rw [none] at found
      cases found
    · rw [heir, Option.some.injEq] at found
      subst found
      obtain ⟨source, target, statement⟩ := Edge.isCopy_iff.mp copy
      exact ⟨there, source.symm, statement.symm, target.symm,
        by simp [Edge.bypass, sources member other]⟩
  · intro e member vanishes
    rcases heir_cases removed member with ⟨rfl, _⟩ | ⟨_, g, _, heir, _⟩
    · refine ⟨?_, fun f there leaves => ?_, r.edge, inside, rfl, rfl, rfl⟩
      · by_cases loop : r.edge.target = r.edge.source <;> simp [Edge.bypass, loop]
      · obtain ⟨d, listed, other, rfl⟩ := contracted.origin f there
        exact sources listed other leaves
    · rw [heir] at vanishes
      cases vanishes
  · intro f there
    obtain ⟨e, member, other, rfl⟩ := contracted.origin f there
    refine ⟨e, member, rfl, ?_⟩
    have found := Graph.find?_eq_some_iff.mpr ⟨there, rfl⟩
    have unmerged : r.merged.any (·.id = e.id) = false := by
      apply List.any_eq_false.mpr
      intro m listed same
      exact (contracted.gone m listed).2 _ there (of_decide_eq_true same).symm
    simp only [Removal.heir, other, unmerged, if_false, Bool.false_eq_true]
    exact found
  · rintro _ rfl
    exact ⟨r.edge, inside, rfl⟩
  · intro e _ same
    simp [Removal.heir, same]
  · intro l
    by_cases source : l = r.edge.source
    · refine ⟨[r.edge], ⟨inside, source.symm, ?_⟩, by simp⟩
      simp [IsPath, Edge.bypass, source]
    · exact ⟨[], by simp [IsPath, Edge.bypass, source], by simp⟩

/-- The ids that are listed are those of the edges in the graph. -/
def Listed (p : Pass) : Prop := ∀ id, id ∈ p.order ↔ id ∈ p.graph.edges.map Edge.id

theorem Listed.find?_eq (listed : p.Listed) (id : Nat) : p.find? id = p.graph.find? id := by
  unfold find?
  split
  case isTrue => rfl
  case isFalse unlisted =>
    exact (Graph.find?_eq_none_iff.mpr fun there => unlisted ((listed id).mpr there)).symm

/-- A removal takes out of the listing just what it takes out of the graph. -/
theorem Listed.remove (listed : p.Listed) (removed : p.remove? id = some r) : r.pass.Listed := by
  obtain ⟨_, _, _, contracted⟩ := contracted_of_remove? removed
  obtain ⟨_, _, _, left⟩ := remove?_eq_some_iff.mp removed
  have order : r.pass.order = p.order.filter (· ∉ (r.edge :: r.merged).map Edge.id) := by rw [left]
  intro other
  rw [order, List.mem_filter, listed, decide_eq_true_eq, List.map_cons, List.mem_cons, not_or]
  constructor
  · intro ⟨there, apart, unmerged⟩
    obtain ⟨e, member, rfl⟩ := List.mem_map.mp there
    rcases contracted.arrives e member apart with arrives | ⟨merged, _⟩
    · exact List.mem_map.mpr ⟨_, arrives, rfl⟩
    · exact absurd (List.mem_map.mpr ⟨_, merged, rfl⟩) unmerged
  · intro there
    obtain ⟨f, inside, rfl⟩ := List.mem_map.mp there
    obtain ⟨e, member, apart, rfl⟩ := contracted.origin f inside
    refine ⟨List.mem_map.mpr ⟨e, member, rfl⟩, apart, fun out => ?_⟩
    obtain ⟨m, merged, same⟩ := List.mem_map.mp out
    exact (contracted.gone m merged).2 _ inside same.symm

/-- The states an elimination can go through, with the removals made so far. Between removals
liveness may be computed, and the elimination may be cancelled. -/
inductive Progress (start : Pass) : List Removal → Pass → Prop
  | start : Progress start [] start
  | analyze {removals : List Removal} {p : Pass} (before : Progress start removals p)
      (limit : Option Nat) :
      Progress start removals ({ p with iterations := p.iterations + 1 }.analyze limit).pass
  | cancel {removals : List Removal} {p : Pass} (before : Progress start removals p) :
      Progress start removals p.cancel
  | remove {removals : List Removal} {p : Pass} {id : Nat} {r : Removal}
      (before : Progress start removals p) (removed : p.remove? id = some r) :
      Progress start (removals ++ [r]) r.pass

/-- The edge that stood for the given one was removed. -/
def IsContracted (removals : List Removal) (e : Edge Location) : Prop :=
  ∃ before r, before ++ [r] <+: removals ∧ heir before e = some r.edge

theorem heir_concat (removals : List Removal) (r : Removal) (e : Edge Location) :
    heir (removals ++ [r]) e = heir removals e >>= r.heir := by
  simp [heir, List.foldlM_append]

theorem representative_concat (removals : List Removal) (r : Removal) (l : Location) :
    representative (removals ++ [r]) l = r.edge.bypass (representative removals l) := by
  simp [representative]

theorem identified_edges (g : Graph Location) : Edge.Identified g.edges :=
  fun _ left _ right => g.eq_of_id_eq left right

namespace Progress

variable {start : Pass}

theorem trans {before after : List Removal} (first : Progress start before p)
    (second : Progress p after q) : Progress start (before ++ after) q := by
  induction second with
  | start => simpa using first
  | analyze _ limit ih => exact ih.analyze limit
  | cancel _ ih => exact ih.cancel
  | remove _ removed ih =>
      rw [← List.append_assoc]
      exact ih.remove removed

theorem split {before after : List Removal} (progress : Progress start (before ++ after) p) :
    ∃ q, Progress start before q ∧ Progress q after p := by
  generalize all : before ++ after = removals at progress
  induction progress generalizing after with
  | start =>
      obtain ⟨rfl, rfl⟩ := List.append_eq_nil_iff.mp all
      exact ⟨start, .start, .start⟩
  | analyze _ limit ih =>
      obtain ⟨q, first, second⟩ := ih all
      exact ⟨q, first, second.analyze limit⟩
  | cancel _ ih =>
      obtain ⟨q, first, second⟩ := ih all
      exact ⟨q, first, second.cancel⟩
  | @remove removals p id r rest removed ih =>
      rcases List.eq_nil_or_concat after with rfl | ⟨initial, last, rfl⟩
      · rw [List.append_nil] at all
        subst all
        exact ⟨r.pass, rest.remove removed, .start⟩
      · rw [List.concat_eq_append, ← List.append_assoc] at all
        obtain ⟨same, lastIs⟩ := List.append_inj' all rfl
        cases lastIs
        obtain ⟨q, first, second⟩ := ih same
        exact ⟨q, first, List.concat_eq_append ▸ second.remove removed⟩

theorem folding (progress : Progress start removals p) :
    Folding start.graph.edges p.graph.edges (representative removals) (heir removals)
      (fun id => ∃ r ∈ removals, r.edge.id = id) := by
  induction progress with
  | start =>
      have none : (fun id => ∃ r ∈ ([] : List Removal), r.edge.id = id) = fun _ => False := by
        funext id
        simp
      rw [none]
      exact .refl start.graph.edges
  | analyze _ _ ih => exact ih
  | cancel _ ih => exact ih
  | @remove removals p id r _ removed ih =>
      have both := ih.trans (identified_edges _) (folding_of_remove? removed)
      have ids : (fun id => (∃ r ∈ removals, r.edge.id = id) ∨ id = r.edge.id) =
          fun id => ∃ d ∈ removals ++ [r], d.edge.id = id := by
        funext id
        simp [or_and_right, exists_or, eq_comm]
      rw [ids, ← funext (representative_concat removals r), ← funext (heir_concat removals r)] at both
      exact both

theorem representative_eq_self (progress : Progress start removals p) {l : Location}
    (left : l ∈ p.graph.nodes) : representative removals l = l := by
  induction progress with
  | start => rfl
  | analyze _ _ ih => exact ih left
  | cancel _ ih => exact ih left
  | @remove removals p id r _ removed ih =>
      obtain ⟨_, _, _, contracted⟩ := contracted_of_remove? removed
      obtain ⟨before, fixed⟩ := contracted.nodes l left
      rw [representative_concat, ih before, fixed]

theorem heir_eq_none_iff (progress : Progress start removals p) (member : e ∈ start.graph.edges) :
    heir removals e = none ↔ IsContracted removals e := by
  induction progress with
  | start => simp [heir, IsContracted]
  | analyze _ _ ih => exact ih
  | cancel _ ih => exact ih
  | @remove removals p id r before removed ih =>
      have gone : heir (removals ++ [r]) e = none ↔
          heir removals e = none ∨ heir removals e = some r.edge := by
        rw [heir_concat]
        cases found : heir removals e with
        | none => simp
        | some f =>
            have inside : f ∈ p.graph.edges := (before.folding.kept e member f found).1
            rcases heir_cases removed inside with ⟨rfl, none⟩ | ⟨other, g, _, heirF, _⟩
            · simp [none]
            · have apart : f ≠ r.edge := fun same => other (congrArg Edge.id same)
              simp [heirF, apart]
      rw [gone, ih]
      constructor
      · intro given
        rcases given with ⟨early, d, within, stood⟩ | now
        · exact ⟨early, d, within.trans (List.prefix_append _ _), stood⟩
        · exact ⟨removals, r, List.prefix_rfl, now⟩
      · intro given
        obtain ⟨early, d, within, stood⟩ := given
        rcases List.prefix_concat_iff.mp within with whole | earlier
        · obtain ⟨rfl, last⟩ := List.append_inj' whole rfl
          cases last
          exact .inr stood
        · exact .inl ⟨early, d, earlier, stood⟩

theorem merged_of_heir_ne (progress : Progress start removals p) (found : heir removals e = some f)
    (other : f.id ≠ e.id) : ∃ r ∈ removals, ∃ m ∈ r.merged, m.id = e.id := by
  induction progress generalizing f with
  | start =>
      cases found
      exact absurd rfl other
  | analyze _ _ ih => exact ih found other
  | cancel _ ih => exact ih found other
  | @remove removals p id r before removed ih =>
      rw [heir_concat] at found
      obtain ⟨d, first, second⟩ := Option.bind_eq_some_iff.mp found
      by_cases same : d.id = e.id
      · refine ⟨r, by simp, ?_⟩
        unfold Removal.heir at second
        split at second
        · cases second
        · split at second
          case isTrue out =>
            obtain ⟨m, listed, sameId⟩ := List.any_eq_true.mp out
            exact ⟨m, listed, (of_decide_eq_true sameId).trans same⟩
          case isFalse =>
            have kept := (Graph.find?_eq_some_iff.mp second).2
            exact absurd (kept.trans same) other
      · obtain ⟨earlier, listed, rest⟩ := ih first same
        exact ⟨earlier, List.mem_append_left _ listed, rest⟩

theorem exists_of_mem (progress : Progress start removals p) (listed : r ∈ removals) :
    ∃ e ∈ start.graph.edges, e.id = r.edge.id ∧ e.statement = r.edge.statement := by
  induction progress with
  | start => cases listed
  | analyze _ _ ih => exact ih listed
  | cancel _ ih => exact ih listed
  | @remove removals p id d before removed ih =>
      rcases List.mem_append.mp listed with early | last
      · exact ih early
      · obtain rfl := List.mem_singleton.mp last
        obtain ⟨inside, _⟩ := contracted_of_remove? removed
        obtain ⟨e, member, sameId, found⟩ := before.folding.origin _ inside
        exact ⟨e, member, sameId, (before.folding.kept e member _ found).2.2.1.symm⟩

theorem listed (progress : Progress start removals p) (listed : start.Listed) : p.Listed := by
  induction progress with
  | start => exact listed
  | analyze _ _ ih => exact ih
  | cancel _ ih => exact ih
  | remove _ removed ih => exact ih.remove removed

end Progress

theorem mem_graph_of_mem_edges (listed : e ∈ p.edges) : e ∈ p.graph.edges := by
  obtain ⟨id, _, found⟩ := List.mem_filterMap.mp (mem_sort.mp listed)
  exact (Graph.find?_eq_some_iff.mp found).1

theorem mem_edges (listed : p.Listed) : e ∈ p.edges ↔ e ∈ p.graph.edges := by
  refine ⟨mem_graph_of_mem_edges, fun member => ?_⟩
  rw [edges, mem_sort, List.mem_filterMap]
  exact ⟨e.id, (listed e.id).mpr (List.mem_map_of_mem member),
    Graph.find?_eq_some_iff.mpr ⟨member, rfl⟩⟩

theorem exists_deadAmong {es : List (Edge Location)}
    (judged : ∀ e ∈ es, ∃ dead, p.isDead e = .ok dead) : ∃ dead, p.deadAmong es = .ok dead := by
  induction es with
  | nil => exact ⟨[], rfl⟩
  | cons e es ih =>
      obtain ⟨verdict, found⟩ := judged e List.mem_cons_self
      obtain ⟨others, rest⟩ := ih fun f later => judged f (List.mem_cons_of_mem _ later)
      exact ⟨if verdict then e :: others else others, by simp only [deadAmong, found, rest]; rfl⟩

theorem deadAmong_cons_eq_ok {d : Edge Location} {es dead : List (Edge Location)}
    (found : p.deadAmong (d :: es) = .ok dead) :
    ∃ verdict others, p.isDead d = .ok verdict ∧ p.deadAmong es = .ok others ∧
      dead = if verdict then d :: others else others := by
  cases judged : p.isDead d with
  | error => simp [deadAmong, judged, bind, Except.bind] at found
  | ok verdict =>
      cases rest : p.deadAmong es with
      | error => simp [deadAmong, judged, rest, bind, Except.bind] at found
      | ok others =>
          have parts : (if verdict = true then d :: others else others) = dead := by
            simpa only [deadAmong, judged, rest, bind, Except.bind, pure, Except.pure,
              Except.ok.injEq] using found
          exact ⟨verdict, others, rfl, rfl, parts.symm⟩

theorem mem_deadAmong {es dead : List (Edge Location)} (found : p.deadAmong es = .ok dead) :
    e ∈ dead ↔ e ∈ es ∧ p.isDead e = .ok true := by
  induction es generalizing dead with
  | nil =>
      cases found
      simp
  | cons d es ih =>
      obtain ⟨verdict, others, judged, rest, rfl⟩ := deadAmong_cons_eq_ok found
      have inside := ih rest
      cases verdict <;> grind

theorem deadAmong_sublist {es dead : List (Edge Location)} (found : p.deadAmong es = .ok dead) :
    dead.Sublist es := by
  induction es generalizing dead with
  | nil =>
      cases found
      exact .slnil
  | cons d es ih =>
      obtain ⟨verdict, others, _, rest, rfl⟩ := deadAmong_cons_eq_ok found
      cases verdict with
      | true => exact (ih rest).cons_cons d
      | false => exact (ih rest).cons d

end Deadwood.Pass
