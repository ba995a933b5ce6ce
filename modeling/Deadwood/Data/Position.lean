namespace Deadwood

/-!
Elements of a list by position. A negative position counts from the end.
-/

/-- Why a list has no element at a position: the position lies outside the list, or it is too large
to be one. -/
inductive PositionError where
  | outside
  | oversized
deriving DecidableEq

def PositionError.message : PositionError → String
  | outside => "list index out of range"
  | oversized => "cannot fit 'int' into an index-sized integer"

/-- Positions are signed words of 64 bits. -/
def isPosition (n : Int) : Bool := -0x8000000000000000 ≤ n ∧ n < 0x8000000000000000

/-- The distance of a position from the start of a list. -/
def fromStart (length : Nat) (position : Int) : Int :=
  if position < 0 then position + length else position

def elementAt (xs : List α) (position : Int) : Except PositionError α :=
  if isPosition position then
    match fromStart xs.length position with
    | .ofNat n =>
        match xs[n]? with
        | some x => .ok x
        | none => .error .outside
    | .negSucc _ => .error .outside
  else .error .oversized

end Deadwood
