import Deadwood.Data.Search

namespace Deadwood

/-!
A stable sort for comparisons that can fail. The first comparison that fails decides what the sort
fails with, so the order of the comparisons matters: runs that are already there are found from left
to right, short ones are extended by insertion, and neighbouring runs are merged by their depth in a
balanced tree of merges. Merging goes element by element, and in leaps while one run keeps winning.
Every comparison asks whether an element that came later is less than one that came earlier.
-/

namespace RunSort

variable {α ε : Type} (lt : α → α → Except ε Bool)

def stays (run : List α) (later : α) (position : Nat) : Except ε Bool :=
  match run[position]? with
  | some x => return !(← lt later x)
  | none => .ok false

def passes (run : List α) (earlier : α) (position : Nat) : Except ε Bool :=
  match run[position]? with
  | some x => lt x earlier
  | none => .ok false

/-! Runs -/

-- A run goes down strictly or does not go down at all.
def takeRun (down : Bool) (previous : α) : List α → Except ε (List α × List α)
  | [] => .ok ([], [])
  | x :: xs => do
      if (← lt x previous) = down then
        let (run, rest) ← takeRun down x xs
        return (x :: run, rest)
      else return ([], x :: xs)

def firstRun : List α → Except ε (List α × List α)
  | x :: y :: xs => do
      let down ← lt y x
      let (more, rest) ← takeRun lt down y xs
      let run := x :: y :: more
      return (if down then run.reverse else run, rest)
  | xs => .ok (xs, [])

def insert (run : List α) (x : α) : Except ε (List α) := do
  let position ← bisect (stays lt run x) 0 run.length
  return run.take position ++ x :: run.drop position

/-- The length to which short runs are extended: the length of the whole list, halved until it is
below 64, and one more if a half was lost on the way. -/
def leastRun (length : Nat) (lost : Bool) : Nat :=
  if length < 64 then length + lost.toNat
  else leastRun (length / 2) (lost || length % 2 = 1)
termination_by length

/-! Merging two runs -/

/-- The side from which two runs are merged. From the front the first run has to be used up last,
from the back the second. -/
inductive Side where
  | front
  | back

namespace Side

def next? : Side → List α → Option (α × List α)
  | front, run => run.head?.map (·, run.tail)
  | back, run => run.getLast?.map (·, run.dropLast)

def outermost : Side → List α → Nat
  | front, _ => 0
  | back, run => run.length - 1

def split : Side → Nat → List α → List α × List α
  | front, position, run => (run.take position, run.drop position)
  | back, position, run => (run.drop position, run.take position)

def join : Side → List α → List α → List α
  | front, placed, others => placed ++ others
  | back, placed, others => others ++ placed

/-- What is left of two runs in its final order, once there is nothing to compare. The last element
of the run that is used up last belongs on the far side. -/
def rest? : Side → List α → List α → Option (List α)
  | front, first, [] => some first
  | front, [], second => some second
  | front, [x], second => some (second ++ [x])
  | back, [], second => some second
  | back, first, [] => some first
  | back, first, [y] => some (y :: first)
  | _, _, _ => none

end Side

inductive Progress (α : Type) where
  | done (merged : List α)
  | ongoing (placed first second : List α) (winsFirst winsSecond : Nat)

namespace Side

def settle (side : Side) (placed first second : List α) (winsFirst winsSecond : Nat) :
    Progress α :=
  match side.rest? first second with
  | some rest => .done (side.join placed rest)
  | none => .ongoing placed first second winsFirst winsSecond

def begin (side : Side) (first second : List α) : Progress α :=
  match side, side.next? first, side.next? second with
  | front, _, some (y, ys) => side.settle [y] first ys 0 0
  | back, some (x, xs), _ => side.settle [x] xs second 0 0
  | _, _, _ => .done (first ++ second)

def walk (side : Side) (first second : List α) : Except ε (Progress α) := do
  match side.next? first, side.next? second with
  | some (x, xs), some (y, ys) =>
      match side, ← lt y x with
      | front, true | back, false => return side.settle [y] first ys 0 1
      | front, false | back, true => return side.settle [x] xs second 1 0
  | _, _ => return .done (first ++ second)

/-- Puts in place what lies outside of the second run's next element, that element, what lies
outside of the first run's next element, and that element. -/
def leap (side : Side) (first second : List α) : Except ε (Progress α) := do
  let some (y, ys) := side.next? second | return .done first
  let position ← gallop (stays lt first y) first.length (side.outermost first)
  let (moved, first) := side.split position first
  if let some rest := side.rest? first second then return .done (side.join moved rest)
  let placed := side.join moved [y]
  if let some rest := side.rest? first ys then return .done (side.join placed rest)
  let some (x, xs) := side.next? first | return .done (side.join placed ys)
  let position ← gallop (passes lt ys x) ys.length (side.outermost ys)
  let (passed, second) := side.split position ys
  let placed := side.join placed passed
  if let some rest := side.rest? first second then return .done (side.join placed rest)
  return side.settle (side.join placed [x]) xs second moved.length passed.length

end Side

inductive Gait where
  | walking (winsFirst winsSecond : Nat)
  | leaping

def worthwhile : Nat := 7

/-- How to go on after a step, and how many wins in a row it takes from now on to leap. That is less
after a leap that was worth it, and more after one that was not. -/
def Gait.next (gait : Gait) (patience winsFirst winsSecond : Nat) : Gait × Nat :=
  match gait with
  | walking oldFirst oldSecond =>
      let inRow (old wins : Nat) := if wins = 0 then 0 else old + wins
      let (first, second) := (inRow oldFirst winsFirst, inRow oldSecond winsSecond)
      (if patience ≤ first ∨ patience ≤ second then leaping else walking first second, patience)
  | leaping =>
      if worthwhile ≤ winsFirst ∨ worthwhile ≤ winsSecond then (leaping, max 1 (patience - 1))
      else (walking 0 0, patience + 1)

def advance (side : Side) (gait : Gait) (patience : Nat) :
    Nat → Progress α → Except ε (List α × Nat)
  | _, .done merged => .ok (merged, patience)
  -- Not reached: each step puts an element in place, and there are as many steps as elements.
  | 0, .ongoing placed first second _ _ => .ok (side.join placed (first ++ second), patience)
  | steps + 1, .ongoing placed first second _ _ => do
      let progress ← match gait with
        | .walking _ _ => side.walk lt first second
        | .leaping => side.leap lt first second
      let (gait, patience) := match progress with
        | .done _ => (gait, patience)
        | .ongoing _ _ _ winsFirst winsSecond => gait.next patience winsFirst winsSecond
      let (merged, left) ← advance side gait patience steps progress
      return (side.join placed merged, left)

/-- Merges two runs, the second of which came later. What is in place already is left out, and the
shorter run is used up last. -/
def mergeRuns (patience : Nat) (first second : List α) : Except ε (List α × Nat) := do
  let some y := second.head? | return (first, patience)
  let (before, first) := first.splitAt (← gallop (stays lt first y) first.length 0)
  let some x := first.getLast? | return (before ++ second, patience)
  let (second, after) :=
    second.splitAt (← gallop (passes lt second x) second.length (second.length - 1))
  let side := if first.length ≤ second.length then Side.front else .back
  let (merged, left) ← advance lt side (.walking 0 0) patience
    (first.length + second.length) (side.begin first second)
  return (before ++ merged ++ after, left)

/-! The tree of merges -/

structure Pending (α : Type) where
  start : Nat
  run : List α
  depth : Nat

/-- The depth of the border between two runs: the first binary digit in which their middles differ,
as fractions of the whole. The middles are given as multiples of half an element. -/
def borderDepth (whole left right : Nat) : Nat :=
  if left < right ∧ right - left < whole then
    if whole ≤ left then borderDepth whole (2 * (left - whole)) (2 * (right - whole)) + 1
    else if whole ≤ right then 1
    else borderDepth whole (2 * left) (2 * right) + 1
  else 1
termination_by whole - (right - left)

structure Forest (α : Type) where
  runs : List (Pending α)
  patience : Nat

def mergePending (patience : Nat) (older newer : Pending α) : Except ε (Pending α × Nat) := do
  let (run, left) ← mergeRuns lt patience older.run newer.run
  return ({ older with run }, left)

def mergeBelow (depth patience : Nat) : List (Pending α) → Except ε (Forest α)
  | newer :: older :: runs =>
      if depth < older.depth then do
        let (merged, left) ← mergePending lt patience older newer
        mergeBelow depth left (merged :: runs)
      else .ok ⟨newer :: older :: runs, patience⟩
  | runs => .ok ⟨runs, patience⟩
termination_by runs => runs.length

def mergeAll (patience : Nat) : List (Pending α) → Except ε (List α)
  -- Of the two pairs at the end, the one with the shorter outer run is merged first.
  | newest :: newer :: older :: runs =>
      if older.run.length < newest.run.length then do
        let (merged, left) ← mergePending lt patience older newer
        mergeAll left (newest :: merged :: runs)
      else do
        let (merged, left) ← mergePending lt patience newer newest
        mergeAll left (merged :: older :: runs)
  | [newer, older] => do return (← mergePending lt patience older newer).1.run
  | [only] => .ok only.run
  | [] => .ok []
termination_by runs => runs.length

def Forest.push (forest : Forest α) (whole start : Nat) (run : List α) : Except ε (Forest α) := do
  match forest.runs with
  | [] => return { forest with runs := [⟨start, run, 0⟩] }
  | newest :: _ =>
      let middle := 2 * newest.start + newest.run.length
      let depth := borderDepth whole middle (middle + newest.run.length + run.length)
      let forest ← mergeBelow lt depth forest.patience forest.runs
      let runs := match forest.runs with
        | newest :: runs => { newest with depth } :: runs
        | [] => []
      return { forest with runs := ⟨start, run, 0⟩ :: runs }

def build (whole start : Nat) (forest : Forest α) : Nat → List α → Except ε (List α)
  | _, [] => mergeAll lt forest.patience forest.runs
  -- Not reached: every run takes an element.
  | 0, _ :: _ => mergeAll lt forest.patience forest.runs
  | runs + 1, x :: xs => do
      let (found, rest) ← firstRun lt (x :: xs)
      let missing := leastRun whole false - found.length
      let run ← (rest.take missing).foldlM (insert lt) found
      let forest ← forest.push lt whole start run
      build whole (start + run.length) forest runs (rest.drop missing)

end RunSort

/-- The elements in ascending order; those of which neither is less keep the order they came in. -/
def runSort {α ε : Type} (lt : α → α → Except ε Bool) (xs : List α) : Except ε (List α) :=
  RunSort.build lt xs.length 0 ⟨[], RunSort.worthwhile⟩ xs.length xs

end Deadwood
