import Deadwood.Proofs.Catalog

namespace Deadwood

/-!
Workspaces beside their catalogs. Main statement: after any commands, every set of a workspace is the
set of the catalog in all that can be asked of it, and every next command has the same answer or the
same error in both.
-/

namespace Workspace

variable {w next : Workspace} {name : String} {s t : HomedSet} {handle : Nat} {u : Universe}

/-- What a command makes of a workspace if it gives new members to no set but `written`. -/
structure Becomes (w : Workspace) (written : Option String) (next : Workspace) : Prop where
  sound : next.Sound
  grown : w.Extends next
  others : ∀ name, written ≠ some name → next.sets.lookup name = w.sets.lookup name

/-- Both fail alike, or they answer alike and what becomes of the workspace stands for what becomes
of the catalog. -/
inductive Agree (w : Workspace) (written : Option String) :
    Except CommandError (Answer × Workspace) → Except CommandError (Answer × Catalog) → Prop where
  | error (cause : CommandError) : Agree w written (.error cause) (.error cause)
  | ok (answer : Answer) {next : Workspace} (becomes : w.Becomes written next) :
      Agree w written (.ok (answer, next)) (.ok (answer, next.plain))

theorem Sound.becomes_self (sound : w.Sound) (written : Option String) : w.Becomes written w :=
  ⟨sound, .refl w, fun _ _ => rfl⟩

theorem Sound.becomes_grow (sound : w.Sound) (grown : (w.universeAt handle).GrowsTo u)
    (written : Option String) : w.Becomes written (w.grow handle u) := by
  have extension := w.extends_grow grown
  have formed : (w.grow handle u).Sound := sound.of_extends extension rfl fun entry member =>
    Nat.lt_of_lt_of_le (sound.handles entry member) extension.length_le
  exact ⟨formed, extension, fun _ _ => rfl⟩

theorem Sound.plain_grow (sound : w.Sound) (grown : (w.universeAt handle).GrowsTo u) :
    (w.grow handle u).plain = w.plain.grow handle u := by
  have sets := sound.map_plainOf (w.extends_grow grown)
  rw [plain, Catalog.grow, ← sets]
  rfl

theorem Becomes.bind (becomes : w.Becomes none next) (home : s.home < next.universes.length)
    (bounded : (next.universeAt s.home).Bounds s.members) (name : String) :
    w.Becomes (some name) (next.bind name s) := by
  obtain ⟨sound, ⟨longer, grows⟩, others⟩ := becomes
  refine ⟨⟨sound.handles, ?_, ?_⟩, ⟨longer, grows⟩, ?_⟩
  · intro entry member
    rcases List.mem_cons.mp member with rfl | old
    · exact home
    · exact sound.homes entry old
  · intro entry member
    rcases List.mem_cons.mp member with rfl | old
    · exact bounded
    · exact sound.bounds entry old
  · intro other apart
    have different : (other == name) = false := by
      rw [beq_eq_false_iff_ne]
      exact fun same => apart (by rw [same])
    rw [Workspace.bind, List.lookup_cons, different]
    exact others other (by simp)

theorem viewOf_plainOf (bounded : (w.universeAt s.home).Bounds s.members) :
    w.viewOf s = w.plain.viewOf (w.plainOf s) := by
  rw [viewOf, Universe.members_eq_filter bounded]
  rfl

theorem Becomes.rebind (becomes : w.Becomes none next) {home : Nat} {members : VarSet}
    (inside : home < next.universes.length) (bounded : (next.universeAt home).Bounds members)
    (name : String) :
    w.Agree (some name) (.ok (next.rebind name home members))
      (.ok (next.plain.rebind name ⟨home, (next.universeAt home).nameSet members⟩)) := by
  have view := viewOf_plainOf (w := next.bind name ⟨home, members⟩) (s := ⟨home, members⟩) bounded
  rw [Workspace.rebind, view]
  exact .ok _ (becomes.bind (s := ⟨home, members⟩) inside bounded name)

theorem mem_of_lookup {α : Type} {entries : List (String × α)} {found : α}
    (bound : entries.lookup name = some found) : (name, found) ∈ entries := by
  obtain ⟨_, _, rfl, _⟩ := List.lookup_eq_some_iff.mp bound
  simp

section

variable {written : Option String}

theorem Sound.agree_handleOf (sound : w.Sound) (name : String)
    {f : Nat → Except CommandError (Answer × Workspace)}
    {g : Nat → Except CommandError (Answer × Catalog)}
    (each : ∀ handle < w.universes.length, w.Agree written (f handle) (g handle)) :
    w.Agree written (w.handleOf name >>= f) (w.plain.handleOf name >>= g) := by
  have tables : w.plain.handleOf name = w.handleOf name := rfl
  rw [tables, handleOf]
  cases bound : w.handles.lookup name with
  | none => exact .error _
  | some handle => exact each handle (sound.handles _ (mem_of_lookup bound))

theorem Sound.agree_setOf (sound : w.Sound) (name : String)
    {f : HomedSet → Except CommandError (Answer × Workspace)}
    {g : PlainSet → Except CommandError (Answer × Catalog)}
    (each : ∀ s, s.home < w.universes.length → (w.universeAt s.home).Bounds s.members →
      w.Agree written (f s) (g (w.plainOf s))) :
    w.Agree written (w.setOf name >>= f) (w.plain.setOf name >>= g) := by
  rw [setOf, Catalog.setOf, lookup_plain]
  cases bound : w.sets.lookup name with
  | none => exact .error _
  | some s =>
      have member := mem_of_lookup bound
      exact each s (sound.homes _ member) (sound.bounds _ member)

/-- An operand is resolved to the bits of the names it stands for, in universes that have grown. -/
theorem Sound.agree_resolve (sound : w.Sound) (inside : handle < w.universes.length)
    (other : Operand) {f : VarSet × Workspace → Except CommandError (Answer × Workspace)}
    {g : Finset String × Catalog → Except CommandError (Answer × Catalog)}
    (each : ∀ members next, w.Becomes none next → (next.universeAt handle).Bounds members →
      w.Agree written (f (members, next))
        (g ((next.universeAt handle).nameSet members, next.plain))) :
    w.Agree written (w.resolve handle other >>= f) (w.plain.resolve handle other >>= g) := by
  cases other with
  | vars vs =>
      obtain ⟨grown, bounded, _⟩ := (w.universeAt handle).internAll_spec vs
      have names := (w.universeAt handle).nameSet_internAll vs
      have plain := sound.plain_grow grown
      have resolved := each _ _ (sound.becomes_grow grown none)
        (by rw [universeAt_grow_self inside]; exact bounded)
      rw [universeAt_grow_self inside, names, plain] at resolved
      exact resolved
  | named name =>
      -- The lookup comes first in both, so it can be taken out in front of what follows.
      rw [resolve, Catalog.resolve, bind_assoc, bind_assoc]
      refine sound.agree_setOf name fun s _ bounded => ?_
      by_cases same : s.home = handle
      · subst same
        have there : (w.plainOf s).home = s.home := rfl
        rw [if_pos rfl, if_pos there]
        exact each s.members w (sound.becomes_self none) bounded
      · have elsewhere : (w.plainOf s).home ≠ handle := same
        rw [if_neg same, if_neg elsewhere]
        exact .error _

end

/-- A change of bits that is a change of names in every universe changes a set as it changes an
ordinary one. -/
theorem Sound.update_agrees (sound : w.Sound) (name : String) (other : Operand)
    {change : VarSet → VarSet → VarSet}
    {plainly : Finset String → Finset String → Finset String}
    (names : ∀ (u : Universe) s t, u.nameSet (change s t) = plainly (u.nameSet s) (u.nameSet t))
    (bounds : ∀ (u : Universe) s t, u.Bounds s → u.Bounds t → u.Bounds (change s t)) :
    w.Agree (some name) (w.update name other change) (w.plain.update name other plainly) := by
  refine sound.agree_setOf name fun s inside bounded => ?_
  refine sound.agree_resolve inside other fun operand next becomes known => ?_
  have grown := becomes.grown.grows _ inside
  have still := Nat.lt_of_lt_of_le inside becomes.grown.length_le
  have changed : plainly (w.plainOf s).names ((next.universeAt s.home).nameSet operand) =
      (next.universeAt s.home).nameSet (change s.members operand) := by
    rw [names, grown.nameSet_eq bounded]
    rfl
  simp only [changed]
  exact becomes.rebind still (bounds _ _ _ (bounded.mono grown) known) name

theorem Sound.union_agrees (sound : w.Sound) (set : String) (other : Operand) :
    w.Agree (some set) (w.update set other (· ∪ ·)) (w.plain.update set other (· ∪ ·)) :=
  sound.update_agrees set other (fun _ _ _ => Universe.nameSet_union) fun _ _ _ => .union

theorem Sound.diff_agrees (sound : w.Sound) (set : String) (other : Operand) :
    w.Agree (some set) (w.update set other (· \ ·)) (w.plain.update set other (· \ ·)) :=
  sound.update_agrees set other (fun _ _ _ => Universe.nameSet_diff)
    fun _ _ _ bounded _ => bounded.diff

theorem Sound.declare_agrees (sound : w.Sound) (name : String) (vs : List Var) :
    w.Agree none (w.run (.declare name vs)) (w.plain.run (.declare name vs)) := by
  let next : Workspace :=
    { w with
      universes := w.universes ++ [Universe.ofVars vs]
      handles := (name, w.universes.length) :: w.handles }
  have old : ∀ handle < w.universes.length, next.universeAt handle = w.universeAt handle := by
    intro handle inside
    simp [universeAt, next, List.getElem?_append_left inside]
  have longer : w.universes.length < next.universes.length := by simp [next]
  have grown : w.Extends next :=
    ⟨Nat.le_of_lt longer, fun handle inside => (old handle inside).symm ▸ .refl _⟩
  have formed : next.Sound := by
    apply sound.of_extends grown rfl
    intro entry member
    rcases List.mem_cons.mp member with rfl | before
    · exact longer
    · exact Nat.lt_trans (sound.handles entry before) longer
  have plain : next.plain =
      { w.plain with
        universes := w.universes ++ [Universe.ofVars vs]
        handles := (name, w.universes.length) :: w.handles } := by
    rw [Workspace.plain, sound.map_plainOf grown]
  have becomes : w.Becomes none next := ⟨formed, grown, fun _ _ => rfl⟩
  have agree := Agree.ok (.number (Universe.ofVars vs).size) becomes
  rw [plain] at agree
  exact agree

theorem plainOf_inj (left : (w.universeAt s.home).Bounds s.members)
    (right : (w.universeAt t.home).Bounds t.members) : w.plainOf s = w.plainOf t ↔ s = t := by
  constructor
  · intro same
    obtain ⟨home, members⟩ := s
    obtain ⟨_, others⟩ := t
    simp only [plainOf, PlainSet.mk.injEq] at same
    obtain ⟨rfl, names⟩ := same
    have bits : members = others := (Universe.nameSet_inj left right).mp names
    rw [bits]
  · exact fun same => same ▸ rfl

/-- A command has the same outcome for the sets and for what they stand for. -/
theorem Sound.run_agrees (sound : w.Sound) (command : Command) :
    w.Agree command.written (w.run command) (w.plain.run command) := by
  cases command with
  | declare name vs => exact sound.declare_agrees name vs
  | idOf home v =>
      refine sound.agree_handleOf home fun handle _ => ?_
      have grown := ((w.universeAt handle).intern_spec v).1
      have agree := Agree.ok (.number ((w.universeAt handle).intern v).1)
        (sound.becomes_grow grown none)
      rw [sound.plain_grow grown] at agree
      exact agree
  | varAt home position =>
      refine sound.agree_handleOf home fun handle _ => ?_
      have tables : w.plain.universeAt handle = w.universeAt handle := rfl
      rw [tables]
      cases (w.universeAt handle).varAt position with
      | error cause => exact .error _
      | ok v => exact .ok _ (sound.becomes_self none)
  | knows home v =>
      exact sound.agree_handleOf home fun _ _ => .ok _ (sound.becomes_self none)
  | sizeOf home =>
      exact sound.agree_handleOf home fun _ _ => .ok _ (sound.becomes_self none)
  | create set home start =>
      refine sound.agree_handleOf home fun handle inside => ?_
      refine sound.agree_resolve inside _ fun members next becomes known => ?_
      exact becomes.rebind (Nat.lt_of_lt_of_le inside becomes.grown.length_le) known set
  | add set v => exact sound.union_agrees set (.vars [v])
  | remove set v => exact sound.diff_agrees set (.vars [v])
  | addAll set other => exact sound.union_agrees set other
  | removeAll set other => exact sound.diff_agrees set other
  | copy set target =>
      refine sound.agree_setOf set fun s inside bounded => ?_
      exact (sound.becomes_self none).rebind inside bounded target
  | has set v =>
      refine sound.agree_setOf set fun s _ _ => ?_
      have told : decide (v.name ∈ (w.plainOf s).names) =
          (w.universeAt s.home).holds s.members v.name := by
        rw [Bool.eq_iff_iff, decide_eq_true_iff]
        exact Universe.mem_nameSet
      rw [told]
      exact .ok _ (sound.becomes_self none)
  | same set other =>
      cases other with
      | vars vs => exact sound.agree_setOf set fun _ _ _ => .ok _ (sound.becomes_self none)
      | named other =>
          refine sound.agree_setOf set fun s _ bounded => ?_
          refine sound.agree_setOf other fun t _ known => ?_
          simp only [plainOf_inj bounded known]
          exact .ok _ (sound.becomes_self none)
  | subset set other =>
      refine sound.agree_setOf set fun s inside bounded => ?_
      refine sound.agree_resolve inside other fun operand next becomes known => ?_
      have grown := becomes.grown.grows _ inside
      have told : decide ((w.plainOf s).names ⊆ (next.universeAt s.home).nameSet operand) =
          s.members.isSubset operand := by
        rw [Bool.eq_iff_iff, decide_eq_true_iff, plainOf, ← grown.nameSet_eq bounded]
        exact Universe.nameSet_subset_iff (bounded.mono grown)
      simp only [told]
      exact .ok _ becomes
  | view set =>
      refine sound.agree_setOf set fun s _ bounded => ?_
      rw [viewOf_plainOf bounded]
      exact .ok _ (sound.becomes_self none)

theorem Sound.perform (sound : w.Sound) (command : Command) :
    w.Becomes command.written (w.perform command) ∧
      (w.perform command).plain = w.plain.perform command := by
  have agree := sound.run_agrees command
  unfold Workspace.perform Catalog.perform
  generalize w.run command = outcome at agree ⊢
  generalize w.plain.run command = plainOutcome at agree ⊢
  cases agree with
  | error cause => exact ⟨sound.becomes_self _, rfl⟩
  | ok answer becomes => exact ⟨becomes, rfl⟩

theorem Sound.performAll (sound : w.Sound) (commands : List Command) :
    (w.performAll commands).Sound ∧ w.Extends (w.performAll commands) ∧
      (w.performAll commands).plain = w.plain.performAll commands := by
  induction commands generalizing w with
  | nil => exact ⟨sound, .refl w, rfl⟩
  | cons command commands ih =>
      obtain ⟨becomes, plain⟩ := sound.perform command
      obtain ⟨last, grown, rest⟩ := ih becomes.sound
      refine ⟨last, becomes.grown.trans grown, rest.trans ?_⟩
      rw [plain]
      rfl

theorem sound_empty : empty.Sound := ⟨by simp [empty], by simp [empty], by simp [empty]⟩

theorem grow_universeAt (w : Workspace) (handle : Nat) :
    w.grow handle (w.universeAt handle) = w := by
  have same : w.universes.set handle (w.universeAt handle) = w.universes := by
    apply List.ext_getElem?
    intro other
    rw [List.getElem?_set]
    split
    case isTrue here =>
      subst here
      split
      case isTrue inside => simp [universeAt, inside]
      case isFalse outside => simp [Nat.le_of_not_lt outside]
    case isFalse => rfl
  rw [grow, same]

/-- The members of a set, handed over as variables. -/
def listed (w : Workspace) (s : HomedSet) : Operand :=
  .vars ((w.universeAt s.home).members s.members)

theorem resolve_named (bound : w.sets.lookup name = some t) (handle : Nat) :
    w.resolve handle (.named name) =
      if t.home = handle then .ok (t.members, w) else .error .differentUniverses := by
  rw [resolve, setOf, bound]
  rfl

theorem resolve_listed (bound : w.sets.lookup name = some t)
    (bounded : (w.universeAt t.home).Bounds t.members) :
    w.resolve t.home (.named name) = w.resolve t.home (w.listed t) := by
  rw [resolve_named bound, if_pos rfl, listed, resolve, Universe.internAll_members bounded]
  simp only [grow_universeAt]

end Workspace

/-- A bit set is as good as a set of names: it tells the same of each name, is as large, and lists
its members by ascending id, each once and none unknown. -/
structure Universe.Denotes (u : Universe) (s : VarSet) (names : Finset String) : Prop where
  holds_iff : ∀ name, u.holds s name = true ↔ name ∈ names
  isEmpty_iff : s.isEmpty = true ↔ names = ∅
  size_eq : s.size = names.card
  ids_ascending : s.ids.Pairwise (· < ·)
  ids_known : s.ids.map u.var? = (u.members s).map some
  members_once : ((u.members s).map Var.name).Nodup
  members_iff : ∀ name, name ∈ (u.members s).map Var.name ↔ name ∈ names

theorem Universe.Bounds.denotes {u : Universe} {s : VarSet} (bounded : u.Bounds s) :
    u.Denotes s (u.nameSet s) where
  holds_iff _ := mem_nameSet.symm
  isEmpty_iff := (nameSet_eq_empty_iff bounded).symm
  size_eq := (card_nameSet bounded).symm
  ids_ascending := s.ids_ascending
  ids_known := map_var?_ids bounded
  members_once := members_names_nodup bounded
  members_iff _ := List.mem_toFinset.symm

namespace Workspace

variable {w : Workspace} {c : Catalog}

/-- A workspace is a faithful implementation of a catalog. -/
structure Refines (w : Workspace) (c : Catalog) : Prop where
  -- Each set stands for the ordinary one of its name, and what is asked has the same answer.
  plain_eq : w.plain = c
  answers : ∀ command,
    (w.run command).map (fun outcome => (outcome.1, outcome.2.plain)) = c.run command
  denotes : ∀ name s, w.sets.lookup name = some s →
    c.sets.lookup name = some (w.plainOf s) ∧
      (w.universeAt s.home).Denotes s.members (w.plainOf s).names
  compares : ∀ first s second t, w.sets.lookup first = some s → w.sets.lookup second = some t →
    t.home = s.home →
      (s.members = t.members ↔ (w.plainOf s).names = (w.plainOf t).names) ∧
      (s.members.isSubset t.members = true ↔ (w.plainOf s).names ⊆ (w.plainOf t).names)
  -- A set as an operand is as good as the list of its members, where it has the right universe.
  operand : ∀ name s other t, w.sets.lookup name = some s → w.sets.lookup other = some t →
    t.home = s.home →
      ∀ change ∈ [Command.addAll name, Command.removeAll name, Command.subset name],
        w.run (change (.named other)) = w.run (change (w.listed t))
  start : ∀ name home other t, w.sets.lookup other = some t → w.handles.lookup home = some t.home →
    w.run (.create name home (some (.named other))) = w.run (.create name home (some (w.listed t)))
  foreign : ∀ name s other t, w.sets.lookup name = some s → w.sets.lookup other = some t →
    t.home ≠ s.home →
      ∀ change ∈ [Command.addAll name, Command.removeAll name, Command.subset name],
        w.run (change (.named other)) = .error .differentUniverses ∧
          w.perform (change (.named other)) = w
  -- A command that interns variables leaves all other sets the names they had.
  others : ∀ command name, command.written ≠ some name →
    (w.perform command).plain.sets.lookup name = w.plain.sets.lookup name
  ids_dense : ∀ handle id, id < (w.universeAt handle).size ↔
    ∃ name, (w.universeAt handle).id? name = some id
  ids_distinct : ∀ handle first second id, (w.universeAt handle).id? first = some id →
    (w.universeAt handle).id? second = some id → first = second
  ids_given : ∀ home handle v, w.handles.lookup home = some handle → ∃ id next,
    w.run (.idOf home v) = .ok (.number id, next) ∧ (next.universeAt handle).id? v.name = some id
  ids_stable : ∀ later handle name id, (w.universeAt handle).id? name = some id →
    ((w.performAll later).universeAt handle).id? name = some id

theorem Sound.refines (sound : w.Sound) : w.Refines w.plain where
  plain_eq := rfl
  answers command := by
    have agree := sound.run_agrees command
    generalize w.run command = outcome at agree ⊢
    generalize w.plain.run command = plainly at agree ⊢
    cases agree with
    | error cause => rfl
    | ok answer becomes => rfl
  denotes name s bound := by
    rw [lookup_plain, bound]
    exact ⟨rfl, (sound.bounds _ (mem_of_lookup bound)).denotes⟩
  compares first s second t left right sameHome := by
    have bounded := sound.bounds _ (mem_of_lookup left)
    have known := sound.bounds _ (mem_of_lookup right)
    dsimp only at bounded known
    rw [sameHome] at known
    simp only [plainOf, sameHome]
    exact ⟨(Universe.nameSet_inj bounded known).symm, (Universe.nameSet_subset_iff bounded).symm⟩
  operand name s other t left right sameHome change listed := by
    have resolved := resolve_listed right (sound.bounds _ (mem_of_lookup right))
    rw [sameHome] at resolved
    simp only [List.mem_cons, List.not_mem_nil, or_false] at listed
    rcases listed with rfl | rfl | rfl <;>
      simp only [run, update, setOf, left, Bind.bind, Except.bind, resolved]
  start name home other t bound handle := by
    have resolved := resolve_listed bound (sound.bounds _ (mem_of_lookup bound))
    simp only [run, handleOf, handle, Bind.bind, Except.bind, Option.getD_some, resolved]
  foreign name s other t left right apart change listed := by
    have refused : w.resolve s.home (.named other) = .error .differentUniverses := by
      rw [resolve_named right, if_neg apart]
    have failed : w.run (change (.named other)) = .error .differentUniverses := by
      simp only [List.mem_cons, List.not_mem_nil, or_false] at listed
      rcases listed with rfl | rfl | rfl <;>
        simp only [run, update, setOf, left, Bind.bind, Except.bind, refused]
    exact ⟨failed, by rw [Workspace.perform, failed]⟩
  others command name apart := by
    obtain ⟨becomes, _⟩ := sound.perform command
    rw [lookup_plain, lookup_plain, becomes.others name apart]
    cases bound : w.sets.lookup name with
    | none => rfl
    | some s =>
        rw [Option.map_some, Option.map_some, sound.plainOf_eq becomes.grown (mem_of_lookup bound)]
  ids_dense _ _ := Universe.id_lt_size_iff
  ids_distinct _ _ _ _ := Universe.id?_inj
  ids_given home handle v bound := by
    have inside := sound.handles _ (mem_of_lookup bound)
    refine ⟨_, _, by rw [run, handleOf, bound]; rfl, ?_⟩
    rw [universeAt_grow_self inside]
    exact ((w.universeAt handle).intern_spec v).2
  ids_stable later handle name id known := by
    have inside : handle < w.universes.length := by
      by_contra outside
      simp [universeAt, outside, Universe.id?, Universe.empty] at known
    obtain ⟨_, grown, _⟩ := sound.performAll later
    exact (grown.grows handle inside).id?_eq known

/-- Sets of variables refine ordinary sets of names. Whatever the commands, each set is the one that
the same commands give as an ordinary set, and the next command has the same answer or error. -/
theorem commands_refine_plain_sets (commands : List Command) :
    (empty.performAll commands).Refines (Catalog.empty.performAll commands) := by
  obtain ⟨sound, _, plain⟩ := sound_empty.performAll commands
  have refines := sound.refines
  rw [plain] at refines
  exact refines

end Workspace

end Deadwood
