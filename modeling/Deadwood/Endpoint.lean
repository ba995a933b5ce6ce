import Deadwood.Data.RunSort
import Deadwood.Location

namespace Deadwood

/-!
The ends of edges as they are handed in. A plain number may stand where a location belongs; it keeps
to itself, and is never compared with a location.
-/

inductive Endpoint where
  | number (n : Int)
  | location (l : Location)
deriving DecidableEq

namespace Endpoint

def text : Endpoint → String
  | number n => toString n
  | location l => l.text

def describe : Endpoint → String
  | number n => toString n
  | location l => l.describe

def kind : Endpoint → String
  | number _ => "int"
  | location _ => "Location"

/-- Numbers by size, locations in their own order, and all numbers before all locations. -/
def order : Endpoint → Endpoint → Ordering
  | number n, number m => compare n m
  | number _, location _ => .lt
  | location _, number _ => .gt
  | location l, location m => compare l m

theorem order_swap (a b : Endpoint) : order a b = (order b a).swap := by
  cases a with
  | number n =>
      cases b with
      | number m => exact @Std.OrientedCmp.eq_swap Int compare _ n m
      | location m => rfl
  | location l =>
      cases b with
      | number m => rfl
      | location m => exact @Std.OrientedCmp.eq_swap Location compare _ l m

theorem order_trans {a b c : Endpoint} (left : (order a b).isLE) (right : (order b c).isLE) :
    (order a c).isLE := by
  cases a with
  | number n =>
      cases b with
      | number m =>
          cases c with
          | number k => exact @Std.TransCmp.isLE_trans Int compare _ n m k left right
          | location k => rfl
      | location m =>
          cases c with
          | number k => cases right
          | location k => rfl
  | location l =>
      cases b with
      | number m => cases left
      | location m =>
          cases c with
          | number k => cases right
          | location k => exact @Std.TransCmp.isLE_trans Location compare _ l m k left right

instance : Std.TransCmp order where
  eq_swap := order_swap _ _
  isLE_trans := order_trans

instance : Std.LawfulEqCmp order where
  eq_of_compare {a b} same := by
    cases a <;> cases b <;> simp_all [order]

instance : Node Endpoint where
  compare := order
  text := text
  transOrd := inferInstanceAs (Std.TransCmp order)
  lawfulEqOrd := inferInstanceAs (Std.LawfulEqCmp order)

end Endpoint

/-- Two ends that nobody can put in order, because one is a number and the other is none. -/
structure Incomparable where
  later : Endpoint
  earlier : Endpoint
deriving DecidableEq

def Incomparable.message (c : Incomparable) : String :=
  "'<' not supported between instances of '" ++ c.later.kind ++ "' and '" ++ c.earlier.kind ++ "'"

namespace Endpoint

/-- Whether an end goes before one that came earlier. -/
def lt? (later earlier : Endpoint) : Except Incomparable Bool :=
  match later, earlier with
  | number n, number m => .ok (n < m)
  | location l, location m => .ok (l < m)
  | _, _ => .error { later, earlier }

/-- Whether an end goes before one that came earlier or is the same. -/
def le? (later earlier : Endpoint) : Except Incomparable Bool := do
  return (← lt? later earlier) || later = earlier

/-- Ends of one kind in ascending order. -/
def arrange (ends : List Endpoint) : Except Incomparable (List Endpoint) := runSort lt? ends

end Endpoint

end Deadwood
