import Deadwood.Node
import Deadwood.Text.Hex

namespace Deadwood

/-!
Program points, ordered by address and then by position within the instruction at that address.
-/

structure Location where
  address : Int
  index : Int := 0
deriving DecidableEq, Repr

namespace Location

/-- The address in eight hexadecimal digits, then the index. -/
def text (l : Location) : String := Text.hexPadded 8 l.address ++ "_" ++ toString l.index

def describe (l : Location) : String := "Location(" ++ l.text ++ ")"

def order : Location → Location → Ordering := compareLex (compareOn address) (compareOn index)

theorem order_def (l m : Location) :
    order l m = (compare l.address m.address).then (compare l.index m.index) := rfl

instance : Std.TransCmp order :=
  inferInstanceAs (Std.TransCmp (compareLex (compareOn address) (compareOn index)))

instance : Std.LawfulEqCmp order where
  eq_of_compare {l m} same := by
    cases l
    cases m
    simpa [order_def, Ordering.then_eq_eq] using same

instance : Node Location where
  compare := order
  text := text
  transOrd := inferInstanceAs (Std.TransCmp order)
  lawfulEqOrd := inferInstanceAs (Std.LawfulEqCmp order)

instance : LT Location := ltOfOrd

instance : LE Location := leOfOrd

end Location

end Deadwood
