/-
  Runs, the pieces of a list that are in order already.

  An order is given by a test that says whether an element
  comes before another one.
-/

---- Natural Runs ----

namespace CircuitGraph

namespace Sorting

variable {α : Type}

def stretch (related : α → α → Bool) (x : α) : List α → List α × List α
  | [] => ([x], [])
  | y :: ys =>
    if related x y then
      let (run, rest) := stretch related y ys
      (x :: run, rest)
    else ([x], y :: ys)

/- The start of a list that is in order, perhaps only after it is turned around, and the rest. -/
def firstRun (before : α → α → Bool) : List α → List α × List α
  | x :: y :: others =>
    if before y x then
      let (run, rest) := stretch (fun a b => before b a) x (y :: others)
      (run.reverse, rest)
    else stretch (fun a b => !before b a) x (y :: others)
  | xs => (xs, [])

---- Places ----

/-
  Doubles a distance while a test holds at it, up to a limit.
  Gives the last distance at which the test held, and the
  distance at which that ended.
-/
def stride (holds : Nat → Bool) (limit : Nat) : Nat → Nat → Nat → Nat × Nat
  | 0, last, reach => (last, min reach limit)
  | fuel + 1, last, reach =>
    if reach < limit && holds reach then stride holds limit fuel reach (2 * reach + 1)
    else (last, min reach limit)

/-
  The place between two places up to which a test holds, found
  by halving.  Of two middles the later one is looked at, or
  the earlier one if the list is seen from behind.  Each step
  shortens the distance, so `fuel` may be the distance itself.
-/
def halve (holds : Nat → Bool) (behind : Bool) : Nat → Nat → Nat → Nat
  | 0, low, _ => low
  | fuel + 1, low, high =>
    if low < high then
      let middle := if behind then (low + high - 1) / 2 else (low + high) / 2
      if holds middle then halve holds behind fuel (middle + 1) high
      else halve holds behind fuel low middle
    else low

def leading (behind : Bool) (test : α → Bool) (xs : List α) : Nat :=
  let elements := xs.toArray
  let holds := fun i => elements[i]?.any test
  if holds 0 then
    let (last, reach) := stride holds xs.length xs.length 0 1
    halve holds behind xs.length (last + 1) reach
  else 0

def insert (before : α → α → Bool) (run : List α) (x : α) : List α :=
  let elements := run.toArray
  let holds := fun i => !elements[i]?.any (before x)
  let place := halve holds false run.length 0 run.length
  run.take place ++ x :: run.drop place

end Sorting

end CircuitGraph
