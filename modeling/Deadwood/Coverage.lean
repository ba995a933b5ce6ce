import Deadwood.Data.Reach

namespace Deadwood

/-!
Which registers contain which. A coverage lists direct containment, a wide register before each of
its parts; containment itself is one or more such steps.
-/

open Relation (TransGen)

/-- Direct containment as pairs of a wide register and a part of it. -/
abbrev Coverage := List (String × String)

namespace Coverage

/-- The declarations that count: of several for one wide register, the last. -/
def lastDeclarations : List (String × List String) → List (String × List String)
  | [] => []
  | d :: later =>
      if d.1 ∈ later.map Prod.fst then lastDeclarations later else d :: lastDeclarations later

def ofDeclarations (declarations : List (String × List String)) : Coverage :=
  (lastDeclarations declarations).flatMap fun (wide, parts) => parts.map (wide, ·)

/-- The registers a pair names. A wide register declared without parts is not among them. -/
def mentioned (c : Coverage) : List String := (c.map Prod.fst ++ c.map Prod.snd).eraseDups

def parts (c : Coverage) (wide : String) : List String :=
  c.filterMap fun pair => if pair.1 = wide then some pair.2 else none

def inverse (c : Coverage) : Coverage := c.map Prod.swap

def below (c : Coverage) (wide : String) : List String :=
  reach c.parts (c.map Prod.snd).eraseDups (c.parts wide)

def above (c : Coverage) (part : String) : List String := c.inverse.below part

def Direct (c : Coverage) (wide part : String) : Prop := (wide, part) ∈ c

/-- The wide register contains the other, directly or through registers between them. -/
def Covers (c : Coverage) : String → String → Prop := TransGen c.Direct

@[simp] theorem mem_parts {c : Coverage} {wide part : String} :
    part ∈ c.parts wide ↔ c.Direct wide part := by
  simp [parts, Direct]

@[simp] theorem inverse_direct {c : Coverage} {wide part : String} :
    c.inverse.Direct part wide ↔ c.Direct wide part := by
  simp only [inverse, Direct, List.mem_map, Prod.exists, Prod.swap_prod_mk, Prod.mk.injEq]
  exact ⟨fun ⟨_, _, member, samePart, sameWide⟩ => samePart ▸ sameWide ▸ member,
    fun member => ⟨wide, part, member, rfl, rfl⟩⟩

theorem mem_below {c : Coverage} {wide part : String} :
    part ∈ c.below wide ↔ c.Covers wide part := by
  constructor
  · refine reach_sound (P := c.Covers wide) (fun a seed => .single (mem_parts.mp seed)) ?_ part
    exact fun a b covered step => .tail covered (mem_parts.mp step)
  · have inside {a b : String} (direct : c.Direct a b) : b ∈ (c.map Prod.snd).eraseDups := by
      rw [List.mem_eraseDups]
      exact List.mem_map_of_mem direct
    intro covers
    induction covers with
    | single direct => exact mem_reach_of_pending (mem_parts.mpr direct) (inside direct)
    | tail _ direct ih => exact mem_reach_of_next ih (mem_parts.mpr direct) (inside direct)

theorem covers_inverse {c : Coverage} {wide part : String} :
    c.inverse.Covers part wide ↔ c.Covers wide part := by
  have turn {d : Coverage} {a b : String} (covers : d.Covers a b) : d.inverse.Covers b a := by
    induction covers with
    | single direct => exact .single (inverse_direct.mpr direct)
    | tail _ direct ih => exact .trans (.single (inverse_direct.mpr direct)) ih
  have twice : c.inverse.inverse = c := by simp [inverse]
  exact ⟨fun covers => twice ▸ turn covers, turn⟩

theorem mem_above {c : Coverage} {wide part : String} :
    wide ∈ c.above part ↔ c.Covers wide part := by
  rw [above, mem_below, covers_inverse]

end Coverage

end Deadwood
