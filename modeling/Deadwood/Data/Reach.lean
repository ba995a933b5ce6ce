namespace Deadwood

/-!
Everything that can be reached from some seeds inside a finite domain. Each element found leaves
the domain, so cycles cost nothing and the domain's length bounds the search.
-/

variable {α : Type u} [DecidableEq α] {next : α → List α}

/-- The pending elements from the first one on that is still unseen. -/
def skipSeen (unseen pending : List α) : List α := pending.dropWhile (· ∉ unseen)

theorem mem_of_mem_skipSeen {a : α} {unseen pending : List α}
    (member : a ∈ skipSeen unseen pending) : a ∈ pending :=
  (List.dropWhile_suffix _).subset member

theorem mem_skipSeen {a : α} {unseen pending : List α} (member : a ∈ pending)
    (inside : a ∈ unseen) : a ∈ skipSeen unseen pending := by
  induction pending with
  | nil => cases member
  | cons first rest ih =>
      unfold skipSeen
      rw [List.dropWhile_cons]
      split
      case isTrue outside =>
        rcases List.mem_cons.mp member with same | later
        · exact absurd (same ▸ inside) (of_decide_eq_true outside)
        · exact ih later
      case isFalse => exact member

theorem mem_unseen_of_skipSeen {a : α} {unseen pending rest : List α}
    (found : skipSeen unseen pending = a :: rest) : a ∈ unseen := by
  have stops := List.head?_dropWhile_not (· ∉ unseen) pending
  unfold skipSeen at found
  rw [found] at stops
  simpa using stops

/-- The elements of `unseen` reached from `pending` by repeated `next`, in the order found. -/
def reach (next : α → List α) (unseen pending : List α) : List α :=
  match _found : skipSeen unseen pending with
  | [] => []
  | a :: rest => a :: reach next (unseen.erase a) (next a ++ rest)
termination_by unseen.length
decreasing_by
  have member := mem_unseen_of_skipSeen _found
  have shorter := List.length_erase_of_mem member
  have positive := List.length_pos_of_mem member
  omega

/-- A property of the seeds that `next` passes on holds of everything reached. -/
theorem reach_sound {P : α → Prop} {unseen pending : List α}
    (seeds : ∀ a ∈ pending, P a) (passes : ∀ a b, P a → b ∈ next a → P b) :
    ∀ a ∈ reach next unseen pending, P a := by
  fun_induction reach next unseen pending with
  | case1 => simp
  | case2 unseen pending first rest found ih =>
      have kept (a : α) (member : a ∈ first :: rest) : P a :=
        seeds a (mem_of_mem_skipSeen (found ▸ member))
      have start : P first := kept first List.mem_cons_self
      intro a member
      rcases List.mem_cons.mp member with same | later
      · exact same ▸ start
      · refine ih (fun b seed => ?_) a later
        rcases List.mem_append.mp seed with successor | old
        · exact passes first b start successor
        · exact kept b (List.mem_cons_of_mem _ old)

theorem mem_reach_of_pending {a : α} {unseen pending : List α} (seed : a ∈ pending)
    (inside : a ∈ unseen) : a ∈ reach next unseen pending := by
  fun_induction reach next unseen pending with
  | case1 unseen pending none =>
      have kept := mem_skipSeen seed inside
      rw [none] at kept
      cases kept
  | case2 unseen pending first rest found ih =>
      have kept := mem_skipSeen seed inside
      rw [found] at kept
      by_cases same : a = first
      · exact same ▸ List.mem_cons_self
      · have later : a ∈ rest := (List.mem_cons.mp kept).resolve_left same
        exact List.mem_cons_of_mem _
          (ih (List.mem_append_right _ later) ((List.mem_erase_of_ne same).mpr inside))

theorem mem_reach_of_next {a b : α} {unseen pending : List α}
    (reached : a ∈ reach next unseen pending) (step : b ∈ next a) (inside : b ∈ unseen) :
    b ∈ reach next unseen pending := by
  fun_induction reach next unseen pending with
  | case1 => cases reached
  | case2 unseen pending first rest found ih =>
      by_cases same : b = first
      · exact same ▸ List.mem_cons_self
      · have remains := (List.mem_erase_of_ne same).mpr inside
        rcases List.mem_cons.mp reached with start | later
        · exact List.mem_cons_of_mem _
            (mem_reach_of_pending (List.mem_append_left _ (start ▸ step)) remains)
        · exact List.mem_cons_of_mem _ (ih later remains)

end Deadwood
