namespace Deadwood

/-!
Finding where a test stops holding that holds up to some position and not from there on. The test
may fail, and then the search fails with it; so the positions tried, and their order, are part of
what a search does.
-/

variable {ε : Type u}

/-- Searches between two positions by halving the distance. -/
def bisect (test : Nat → Except ε Bool) (low high : Nat) : Except ε Nat :=
  if low < high then do
    let middle := low + (high - low) / 2
    if ← test middle then bisect test (middle + 1) high else bisect test low middle
  else .ok low
termination_by high - low

/-- Tries the offsets 1, 3, 7 and so on, as long as they pass and stay below a limit. Returns the
last one that passed, and the first one that did not or else the limit. -/
def stride (test : Nat → Except ε Bool) (limit last offset : Nat) : Except ε (Nat × Nat) :=
  if offset < limit then do
    if ← test offset then stride test limit offset (2 * offset + 1) else return (last, offset)
  else .ok (last, limit)
termination_by limit - offset

/-- Searches the first `count` positions in strides away from a position near which the result is
expected, and then by halving the last stride. -/
def gallop (test : Nat → Except ε Bool) (count start : Nat) : Except ε Nat := do
  if ← test start then
    let (last, offset) ← stride (fun k => test (start + k)) (count - start) 0 1
    bisect test (start + last + 1) (start + offset)
  else
    let (last, offset) ← stride (fun k => return !(← test (start - k))) (start + 1) 0 1
    bisect test (start + 1 - offset) (start - last)

end Deadwood
